import Xv6.Sh.Grammar

/-!
# The parser accepts the grammar

On lists of tokens: what the parser returns is derived by the grammar, and what the grammar derives the
parser returns, up to a token that cannot follow. The parser runs to an answer or a panic if it is allowed
for four calls and rounds a token.
-/

namespace Xv6.Sh

open Lib

open List (append_assoc append_nil cons_append length_append length_cons length_replicate map_cons)

variable {c ret : Cmd (List UInt8)} {argv argv' : List (List UInt8)} {ts us rest : List Tok} {rs : List Redir}
  {items : List Item} {fuel n : ℕ} {t : Tok} {a : Arrow} {w : List UInt8}

def IsPanic (e : Stop) : Prop := ∃ p, e = .panic p

@[simp] theorem toks_peek (ts : List Tok) (set : List UInt8) : toks.peek ts set = .ok (within set ts, ts) := rfl

@[simp] theorem toks_gettoken_nil : toks.gettoken [] = .ok (0, [], []) := rfl

@[simp] theorem toks_gettoken_cons : toks.gettoken (t :: ts) = .ok (t.ret, t.text, ts) := rfl

/-! ### Redirections and words -/

@[simp] theorem wrap_nil : wrap c [] = c := rfl

variable {r : Redir}

@[simp] theorem wrap_cons : wrap c (r :: rs) = wrap (.redir c r.2 r.1.mode r.1.fd) rs := rfl

theorem wrap_append {rs' : List Redir} : wrap c (rs ++ rs') = wrap (wrap c rs) rs' := List.foldl_append ..

theorem setArgv_wrap (hc : c.setArgv argv' = .exec argv') : (wrap c rs).setArgv argv' = wrap (.exec argv') rs := by
  induction rs using List.reverseRecOn with
  | nil => exact hc
  | append_singleton rs r ih =>
    rw [wrap_append, wrap_append, wrap_cons, wrap_nil, wrap_cons, wrap_nil, Cmd.setArgv, ih]

@[simp] theorem redirToks_nil : redirToks [] = [] := rfl

@[simp] theorem redirToks_cons : redirToks (r :: rs) = r.1.tok :: .word r.2 :: redirToks rs := rfl

@[simp] theorem itemToks_nil : itemToks [] = [] := rfl

@[simp] theorem itemToks_word : itemToks (.inl w :: items) = .word w :: itemToks items := rfl

@[simp] theorem itemToks_redir : itemToks (.inr r :: items) = r.1.tok :: .word r.2 :: itemToks items := rfl

@[simp] theorem itemWords_word : itemWords (.inl w :: items) = w :: itemWords items := rfl

@[simp] theorem itemWords_redir : itemWords (.inr r :: items) = itemWords items := rfl

@[simp] theorem itemRedirs_word : itemRedirs (.inl w :: items) = itemRedirs items := rfl

@[simp] theorem itemRedirs_redir : itemRedirs (.inr r :: items) = r :: itemRedirs items := rfl

theorem items_redirs (rs : List Redir) (items : List Item) : itemToks (rs.map .inr ++ items) = redirToks rs ++ itemToks items ∧
      itemWords (rs.map .inr ++ items) = itemWords items ∧ itemRedirs (rs.map .inr ++ items) = rs ++ itemRedirs items := by
  induction rs with
  | nil => exact ⟨rfl, rfl, rfl⟩
  | cons r rs ih =>
    obtain ⟨h1, h2, h3⟩ := ih
    refine ⟨?_, h2, ?_⟩
    · rw [map_cons, cons_append, itemToks_redir, h1, redirToks_cons]
      rfl
    · rw [map_cons, cons_append, itemRedirs_redir, h3]
      rfl

theorem exists_arrow (h : within [60, 62] ts = true) : ∃ (a : Arrow) (us : List Tok), ts = a.tok :: us := by
  rcases ts with _ | ⟨t, us⟩
  · exact absurd h (by decide)
  · cases t with
    | lt => exact ⟨.read, us, rfl⟩
    | gt => exact ⟨.write, us, rfl⟩
    | gtgt => exact ⟨.append, us, rfl⟩
    | _ => exact absurd h (by simp [within, Tok.first])

theorem parseredirs_stop (h : within [60, 62] ts = false) : toks.parseredirs (fuel + 1) c ts = .ok (c, ts) := by
  simp [Lexer.parseredirs, h]

theorem parseredirs_arrow : toks.parseredirs (fuel + 1) c (a.tok :: .word w :: ts) = toks.parseredirs fuel (.redir c w a.mode a.fd) ts := by
  cases a <;> rfl

theorem parseredirs_missing (h : ∀ w us, ts ≠ .word w :: us) : toks.parseredirs (fuel + 1) c (a.tok :: ts) = .error (.panic .missingFile) := by
  rcases ts with _ | ⟨t, us⟩
  · cases a <;> rfl
  · cases t with
    | word w => exact absurd rfl (h w us)
    | _ => cases a <;> rfl

theorem parseredirs_sound (h : ts.length < fuel) : Post IsPanic (toks.parseredirs fuel c ts) fun r =>
    ∃ rs, ts = redirToks rs ++ r.2 ∧ r.1 = wrap c rs := by
  induction fuel generalizing c ts with
  | zero => exact absurd h (Nat.not_lt_zero _)
  | succ fuel ih =>
    cases hw : within [60, 62] ts with
    | false =>
      rw [parseredirs_stop hw]
      exact ⟨[], rfl, rfl⟩
    | true =>
      obtain ⟨a, us, rfl⟩ := exists_arrow hw
      by_cases hword : ∃ w vs, us = .word w :: vs
      · obtain ⟨w, vs, rfl⟩ := hword
        rw [parseredirs_arrow]
        refine (ih ?_).mono ?_
        · simp only [length_cons] at h
          omega
        · rintro r ⟨rs, rfl, hr⟩
          exact ⟨(a, w) :: rs, rfl, hr⟩
      · rw [parseredirs_missing fun w vs hus => hword ⟨w, vs, hus⟩]
        exact ⟨_, rfl⟩

theorem exists_succ {m n : ℕ} (h : m < n) : ∃ k, n = k + 1 := Nat.exists_eq_add_one.mpr (Nat.zero_lt_of_lt h)

theorem parseredirs_complete (hrest : within [60, 62] rest = false) (h : (redirToks rs ++ rest).length < fuel) :
    toks.parseredirs fuel c (redirToks rs ++ rest) = .ok (wrap c rs, rest) := by
  induction rs generalizing c fuel with
  | nil =>
    obtain ⟨fuel, rfl⟩ := exists_succ h
    exact parseredirs_stop hrest
  | cons r rs ih =>
    obtain ⟨fuel, rfl⟩ := exists_succ h
    rw [redirToks_cons, cons_append, cons_append, parseredirs_arrow, wrap_cons]
    refine ih ?_
    simp only [redirToks_cons, cons_append, length_cons] at h
    omega

/-! ### The arguments of a command -/

theorem parseargs_stop (h : ts = [] ∨ within [124, 41, 38, 59] ts = true) (hargv : argv.length < MAXARGS) :
    toks.parseargs (fuel + 1) argv ret ts = .ok (ret, ts) := by
  rcases h with rfl | h
  · simp [Lexer.parseargs, within, Lexer.endargs, hargv]
  · simp [Lexer.parseargs, h, Lexer.endargs, hargv]

theorem parseargs_word (hargv : argv.length < MAXARGS) : toks.parseargs (fuel + 1) argv ret (.word w :: ts) =
    if MAXARGS ≤ argv.length + 1 then .error (.panic .tooManyArgs) else toks.parseredirs fuel (ret.setArgv (argv ++ [w])) ts >>= fun r =>
      toks.parseargs fuel (argv ++ [w]) r.1 r.2 := by
  simp [Lexer.parseargs, within, Tok.ret, Tok.first, Tok.text, hargv]

theorem parseargs_unexpected (h : ts ≠ []) (hstop : within [124, 41, 38, 59] ts = false) (hword : ∀ w us, ts ≠ .word w :: us) :
    toks.parseargs (fuel + 1) argv ret ts = .error (.panic .unexpected) := by
  rcases ts with _ | ⟨t, us⟩
  · exact absurd rfl h
  · cases t with
    | word w => exact absurd rfl (hword w us)
    | bar | rparen | semi | amp => exact absurd hstop (by simp [within, Tok.first])
    | _ => rfl

theorem parseargs_sound (h : ts.length < fuel) (hargv : argv.length < MAXARGS) :
    Post IsPanic (toks.parseargs fuel argv (wrap (.exec argv) rs) ts) fun r =>
      ∃ items, ts = itemToks items ++ r.2 ∧ argv.length + (itemWords items).length ≤ MAXARGS - 1 ∧
        r.1 = wrap (.exec (argv ++ itemWords items)) (rs ++ itemRedirs items) := by
  induction fuel generalizing argv rs ts with
  | zero => exact absurd h (Nat.not_lt_zero _)
  | succ fuel ih =>
    have hM : MAXARGS = 10 := rfl
    by_cases hstop : ts = [] ∨ within [124, 41, 38, 59] ts = true
    · rw [parseargs_stop hstop hargv]
      refine ⟨[], rfl, ?_, ?_⟩
      · rw [hM] at hargv ⊢
        change argv.length + 0 ≤ _
        omega
      · change _ = wrap (.exec (argv ++ [])) (rs ++ [])
        rw [append_nil, append_nil]
    obtain ⟨hne, hw⟩ := not_or.mp hstop
    by_cases hword : ∃ w us, ts = .word w :: us
    · obtain ⟨w, us, rfl⟩ := hword
      rw [parseargs_word hargv]
      split
      · exact ⟨_, rfl⟩
      rename_i hfew
      rw [length_cons] at h
      rw [setArgv_wrap rfl]
      refine (parseredirs_sound (by omega)).bind ?_
      rintro ⟨ret, ps⟩ ⟨rs', rfl, hret⟩
      dsimp only at hret h ⊢
      rw [hret, ← wrap_append]
      rw [length_append] at h
      refine (ih (by omega) ?_).mono ?_
      · rw [length_append, List.length_singleton]
        omega
      rintro r ⟨items, rfl, hlen, hr⟩
      obtain ⟨h1, h2, h3⟩ := items_redirs rs' items
      refine ⟨.inl w :: (rs'.map .inr ++ items), ?_, ?_, ?_⟩
      · rw [itemToks_word, h1, cons_append, append_assoc]
      · rw [itemWords_word, h2, length_cons]
        rw [length_append, List.length_singleton] at hlen
        omega
      · rw [hr, itemWords_word, h2, itemRedirs_word, h3, append_assoc, append_assoc]
        rfl
    · rw [parseargs_unexpected hne (Bool.not_eq_true _ ▸ hw) fun w us hus => hword ⟨w, us, hus⟩]
      exact ⟨_, rfl⟩

theorem within_arrow_of_stop (h : ts = [] ∨ within [124, 41, 38, 59] ts = true) : within [60, 62] ts = false ∧ within [40] ts = false := by
  rcases ts with _ | ⟨t, us⟩
  · exact ⟨rfl, rfl⟩
  · rcases h with h | h
    · cases h
    · cases t <;> first | exact ⟨rfl, rfl⟩ | exact absurd h (by simp [within, Tok.first])

variable (argv rs) in
theorem parseargs_complete {fuel' : ℕ} (hrest : rest = [] ∨ within [124, 41, 38, 59] rest = true)
    (hargv : argv.length + (itemWords items).length ≤ MAXARGS - 1)
    (h : (itemToks items ++ rest).length < fuel) (h' : (itemToks items ++ rest).length < fuel') :
    (toks.parseredirs fuel (wrap (.exec argv) rs) (itemToks items ++ rest) >>= fun r => toks.parseargs fuel' argv r.1 r.2) =
      .ok (wrap (.exec (argv ++ itemWords items)) (rs ++ itemRedirs items), rest) := by
  have hM : MAXARGS = 10 := rfl
  induction items generalizing argv rs fuel fuel' with
  | nil =>
    obtain ⟨fuel, rfl⟩ := exists_succ h
    obtain ⟨fuel', rfl⟩ := exists_succ h'
    have hlt : argv.length < MAXARGS := by
      rw [hM] at hargv ⊢
      omega
    rw [itemToks_nil, List.nil_append, parseredirs_stop (within_arrow_of_stop hrest).1, ok_bind, parseargs_stop hrest hlt]
    change _ = Except.ok (wrap (.exec (argv ++ [])) (rs ++ []), rest)
    rw [append_nil, append_nil]
  | cons item items ih =>
    obtain ⟨fuel, rfl⟩ := exists_succ h
    rcases item with w | r
    · obtain ⟨fuel', rfl⟩ := exists_succ h'
      rw [itemWords_word, length_cons] at hargv
      rw [itemToks_word, cons_append] at h h' ⊢
      rw [length_cons] at h h'
      have hlt : argv.length < MAXARGS := by
        rw [hM] at hargv ⊢
        omega
      have hfew : ¬MAXARGS ≤ argv.length + 1 := by
        rw [hM] at hargv ⊢
        omega
      rw [parseredirs_stop rfl, ok_bind, parseargs_word hlt, if_neg hfew, setArgv_wrap rfl,
        ih (argv ++ [w]) rs ?_ (by omega) (by omega), itemWords_word, itemRedirs_word, append_assoc]
      · rfl
      · rw [length_append, List.length_singleton]
        omega
    · rw [itemToks_redir, cons_append, cons_append] at h h' ⊢
      simp only [length_cons] at h h'
      have hwrap : Cmd.redir (wrap (.exec argv) rs) r.2 r.1.mode r.1.fd = wrap (.exec argv) (rs ++ [r]) := by
        rw [wrap_append, wrap_cons, wrap_nil]
      rw [parseredirs_arrow, hwrap, ih argv (rs ++ [r]) hargv (by omega) (by omega), itemWords_redir, itemRedirs_redir, append_assoc]
      rfl

/-! ### Commands in the background -/

theorem parsebacks_stop (h : within [38] ts = false) : toks.parsebacks (fuel + 1) c ts = .ok (c, ts) := by
  simp [Lexer.parsebacks, h]

theorem parsebacks_amp : toks.parsebacks (fuel + 1) c (.amp :: ts) = toks.parsebacks fuel (.back c) ts := rfl

theorem exists_cons (ht : t ∈ [Tok.amp, .semi, .bar, .lparen, .rparen]) (h : within [t.first] ts = true) : ∃ us, ts = t :: us := by
  rcases ts with _ | ⟨u, us⟩
  · exact absurd h (by simp [within])
  · refine ⟨us, ?_⟩
    simp only [List.mem_cons, List.not_mem_nil, or_false] at ht
    rcases ht with rfl | rfl | rfl | rfl | rfl <;> cases u <;>
      first | rfl | exact absurd h (by simp [within, Tok.first])

theorem parsebacks_sound (h : ts.length < fuel) : Post IsPanic (toks.parsebacks fuel c ts) fun r =>
    ∃ n, ts = List.replicate n .amp ++ r.2 ∧ r.1 = Cmd.back^[n] c := by
  induction fuel generalizing c ts with
  | zero => exact absurd h (Nat.not_lt_zero _)
  | succ fuel ih =>
    cases hw : within [38] ts with
    | false =>
      rw [parsebacks_stop hw]
      exact ⟨0, rfl, rfl⟩
    | true =>
      obtain ⟨us, rfl⟩ := exists_cons (t := .amp) (by decide) hw
      rw [length_cons] at h
      rw [parsebacks_amp]
      refine (ih (by omega)).mono ?_
      rintro r ⟨n, rfl, hr⟩
      exact ⟨n + 1, rfl, hr⟩

theorem parsebacks_complete (hrest : within [38] rest = false) (h : n < fuel) :
    toks.parsebacks fuel c (List.replicate n .amp ++ rest) = .ok (Cmd.back^[n] c, rest) := by
  induction n generalizing c fuel with
  | zero =>
    obtain ⟨fuel, rfl⟩ := exists_succ h
    exact parsebacks_stop hrest
  | succ n ih =>
    obtain ⟨fuel, rfl⟩ := exists_succ h
    rw [List.replicate_succ, cons_append, parsebacks_amp, ih (by omega)]
    rfl

/-! ### Lines -/

theorem parseline_succ : toks.parseline (fuel + 1) ts = toks.parsepipe fuel ts >>= fun r =>
    toks.parsebacks fuel r.1 r.2 >>= fun r => if within [59] r.2 then
      toks.parseline fuel r.2.tail >>= fun r' => .ok (.list r.1 r'.1, r'.2) else .ok r := by
  rw [Lexer.parseline]
  refine congrArg _ (funext fun r => ?_)
  change (toks.parsebacks fuel r.1 r.2 >>= _) = _
  refine congrArg _ (funext fun r => ?_)
  rcases r with ⟨c, _ | ⟨t, us⟩⟩ <;> rfl

theorem parsepipe_succ : toks.parsepipe (fuel + 1) ts = toks.parseexec fuel ts >>= fun r =>
    if within [124] r.2 then toks.parsepipe fuel r.2.tail >>= fun r' => .ok (.pipe r.1 r'.1, r'.2) else .ok r := by
  rw [Lexer.parsepipe]
  refine congrArg _ (funext fun r => ?_)
  rcases r with ⟨c, _ | ⟨t, us⟩⟩ <;> rfl

theorem parseblock_succ : toks.parseblock (fuel + 1) (.lparen :: ts) = toks.parseline fuel ts >>= fun r =>
    if within [41] r.2 then toks.parseredirs fuel r.1 r.2.tail else .error (.panic .missingParen) := by
  rw [Lexer.parseblock]
  change (toks.parseline fuel ts >>= _) = _
  refine congrArg _ (funext fun r => ?_)
  rcases r with ⟨c, _ | ⟨t, us⟩⟩ <;> rfl

theorem parseexec_succ : toks.parseexec (fuel + 1) ts = if within [40] ts then toks.parseblock fuel ts
    else toks.parseredirs fuel (.exec []) ts >>= fun r => toks.parseargs fuel [] r.1 r.2 := by
  rw [Lexer.parseexec]
  rfl

theorem parse_sound (fuel : ℕ) : (∀ ts : List Tok, 4 * ts.length + 4 ≤ fuel → Post IsPanic (toks.parseline fuel ts) fun r =>
      ∃ us, ts = us ++ r.2 ∧ Derives .line us r.1) ∧ (∀ ts : List Tok, 4 * ts.length + 3 ≤ fuel → Post IsPanic (toks.parsepipe fuel ts) fun r =>
      ∃ us, ts = us ++ r.2 ∧ Derives .pipe us r.1) ∧
    (∀ ts : List Tok, 4 * ts.length + 5 ≤ fuel → Post IsPanic (toks.parseblock fuel (.lparen :: ts)) fun r =>
      ∃ us, .lparen :: ts = us ++ r.2 ∧ Derives .exec us r.1) ∧
    (∀ ts : List Tok, 4 * ts.length + 2 ≤ fuel → Post IsPanic (toks.parseexec fuel ts) fun r => ∃ us, ts = us ++ r.2 ∧ Derives .exec us r.1) := by
  induction fuel with
  | zero => exact ⟨fun _ h => by omega, fun _ h => by omega, fun _ h => by omega, fun _ h => by omega⟩
  | succ fuel ih =>
    obtain ⟨hline, hpipe, hblock, hexec⟩ := ih
    refine ⟨fun ts h => ?_, fun ts h => ?_, fun ts h => ?_, fun ts h => ?_⟩
    · rw [parseline_succ]
      refine (hpipe ts (by omega)).bind ?_
      rintro ⟨c, ps⟩ ⟨us, rfl, hus⟩
      rw [length_append] at h
      refine (parsebacks_sound (by dsimp only at h ⊢; omega)).bind ?_
      rintro ⟨c', ps'⟩ ⟨n, hps, hc'⟩
      dsimp only at hps hc' hus h ⊢
      subst hps hc'
      split
      · next hw =>
        obtain ⟨vs, rfl⟩ := exists_cons (t := .semi) (by decide) hw
        simp only [length_append, length_cons] at h
        refine (hline vs (by omega)).bind ?_
        rintro ⟨right, ps''⟩ ⟨xs, rfl, hxs⟩
        exact ⟨us ++ List.replicate n .amp ++ .semi :: xs, by simp, .list n hus hxs⟩
      · exact ⟨us ++ List.replicate n .amp, by simp, .line n hus⟩
    · rw [parsepipe_succ]
      refine (hexec ts (by omega)).bind ?_
      rintro ⟨c, ps⟩ ⟨us, rfl, hus⟩
      dsimp only at hus h ⊢
      split
      · next hw =>
        obtain ⟨vs, rfl⟩ := exists_cons (t := .bar) (by decide) hw
        simp only [length_append, length_cons] at h
        refine (hpipe vs (by omega)).bind ?_
        rintro ⟨right, ps''⟩ ⟨xs, rfl, hxs⟩
        exact ⟨us ++ .bar :: xs, by simp, .pipe hus hxs⟩
      · exact ⟨us, rfl, .exec hus⟩
    · rw [parseblock_succ]
      refine (hline ts (by omega)).bind ?_
      rintro ⟨c, ps⟩ ⟨us, rfl, hus⟩
      dsimp only at hus h ⊢
      split
      · next hw =>
        obtain ⟨vs, rfl⟩ := exists_cons (t := .rparen) (by decide) hw
        simp only [length_append, length_cons] at h
        refine (parseredirs_sound (show vs.length < fuel by omega)).mono ?_
        rintro r ⟨rs, rfl, hr⟩
        rw [hr]
        exact ⟨.lparen :: us ++ .rparen :: redirToks rs, by simp, .block rs hus⟩
      · exact ⟨_, rfl⟩
    · rw [parseexec_succ]
      split
      · next hw =>
        obtain ⟨us, rfl⟩ := exists_cons (t := .lparen) (by decide) hw
        rw [length_cons] at h
        exact hblock us (by omega)
      refine (parseredirs_sound (by omega)).bind ?_
      rintro ⟨c, ps⟩ ⟨rs, rfl, hc⟩
      dsimp only at hc h ⊢
      rw [hc]
      rw [length_append] at h
      refine (parseargs_sound (by omega) (by decide)).mono ?_
      rintro r ⟨items, rfl, hlen, hr⟩
      obtain ⟨h1, h2, h3⟩ := items_redirs rs items
      refine ⟨itemToks (rs.map .inr ++ items), by rw [h1, append_assoc], ?_⟩
      rw [hr, ← h3, List.nil_append, ← h2]
      refine .simple _ ?_
      rw [h2]
      rw [List.length_nil, Nat.zero_add] at hlen
      exact hlen

def Nonterminal.Follow (nt : Nonterminal) (ts : List Tok) : Prop :=
  ts = [] ∨ within (match nt with
    | .line => [41]
    | .pipe => [41, 38, 59]
    | .exec => [124, 41, 38, 59]) ts = true

def Nonterminal.parse (nt : Nonterminal) (fuel : ℕ) (ts : List Tok) : Except Stop (Cmd (List UInt8) × List Tok) :=
  match nt with
  | .line => toks.parseline fuel ts
  | .pipe => toks.parsepipe fuel ts
  | .exec => toks.parseexec fuel ts

/-- The calls and rounds that the parser for a symbol needs, for so many tokens. -/
def Nonterminal.calls (nt : Nonterminal) (n : ℕ) : ℕ :=
  match nt with
  | .line => 4 * n + 4
  | .pipe => 4 * n + 3
  | .exec => 4 * n + 2

theorem Nonterminal.Follow.of_pipe (h : Nonterminal.pipe.Follow ts) : Nonterminal.exec.Follow ts ∧ within [124] ts = false := by
  rcases h with rfl | h
  · exact ⟨.inl rfl, rfl⟩
  · rcases ts with _ | ⟨t, us⟩
    · exact ⟨.inl rfl, rfl⟩
    · cases t <;> first | exact ⟨.inr rfl, rfl⟩ | exact absurd h (by simp [within, Tok.first])

theorem Nonterminal.Follow.of_line (h : Nonterminal.line.Follow ts) :
    Nonterminal.pipe.Follow ts ∧ within [38] ts = false ∧ within [59] ts = false := by
  rcases h with rfl | h
  · exact ⟨.inl rfl, rfl, rfl⟩
  · obtain ⟨us, rfl⟩ := exists_cons (t := .rparen) (by decide) h
    exact ⟨.inr rfl, rfl, rfl⟩

theorem Nonterminal.Follow.amps (h : Nonterminal.pipe.Follow ts) : Nonterminal.pipe.Follow (List.replicate n .amp ++ ts) := by
  cases n with
  | zero => exact h
  | succ n => exact .inr rfl

theorem Derives.parse {nt : Nonterminal} (h : Derives nt ts c) (hrest : nt.Follow rest)
    (hfuel : nt.calls (ts ++ rest).length ≤ fuel) : nt.parse fuel (ts ++ rest) = .ok (c, rest) := by
  induction h generalizing rest fuel with
  | @line ts c n hts ih =>
    simp only [Nonterminal.calls, Nonterminal.parse, append_assoc, length_append, length_replicate] at ih hfuel ⊢
    obtain ⟨hpipe, hamp, hsemi⟩ := hrest.of_line
    obtain ⟨fuel, rfl⟩ := exists_succ (show 0 < fuel by omega)
    rw [parseline_succ, ih (hpipe.amps (n := n)) (by simp only [length_append, length_replicate]; omega), ok_bind,
      parsebacks_complete hamp (by omega), ok_bind, if_neg]
    rw [hsemi]
    decide
  | @list ts us c c' n hts hus ih ih' =>
    simp only [Nonterminal.calls, Nonterminal.parse, append_assoc, cons_append, length_append,
      length_replicate, length_cons] at ih ih' hfuel ⊢
    obtain ⟨fuel, rfl⟩ := exists_succ (show 0 < fuel by omega)
    have hsemi : Nonterminal.pipe.Follow (.semi :: (us ++ rest)) := .inr rfl
    rw [parseline_succ, ih (hsemi.amps (n := n)) (by
      simp only [length_append, length_replicate, length_cons]
      omega), ok_bind, parsebacks_complete rfl (by omega), ok_bind]
    change (toks.parseline fuel (us ++ rest) >>= _) = _
    rw [ih' hrest (by omega)]
    rfl
  | exec hts ih =>
    simp only [Nonterminal.calls, Nonterminal.parse] at ih hfuel ⊢
    obtain ⟨hexec, hbar⟩ := hrest.of_pipe
    obtain ⟨fuel, rfl⟩ := exists_succ (show 0 < fuel by omega)
    rw [parsepipe_succ, ih hexec (by omega), ok_bind, if_neg]
    rw [hbar]
    decide
  | @pipe ts us c c' hts hus ih ih' =>
    simp only [Nonterminal.calls, Nonterminal.parse, append_assoc, cons_append, length_append,
      length_cons] at ih ih' hfuel ⊢
    obtain ⟨fuel, rfl⟩ := exists_succ (show 0 < fuel by omega)
    have hbar : Nonterminal.exec.Follow (.bar :: (us ++ rest)) := .inr rfl
    rw [parsepipe_succ, ih hbar (by simp only [length_append, length_cons]; omega), ok_bind]
    change (toks.parsepipe fuel (us ++ rest) >>= _) = _
    rw [ih' hrest (by omega)]
    rfl
  | @block ts c rs hts ih =>
    simp only [Nonterminal.calls, Nonterminal.parse, append_assoc, cons_append, length_append,
      length_cons] at ih hfuel ⊢
    obtain ⟨fuel, rfl⟩ := Nat.exists_eq_add_of_lt (show 1 < fuel by omega)
    have hclose : Nonterminal.line.Follow (.rparen :: (redirToks rs ++ rest)) := .inr rfl
    rw [Nat.add_comm 1 fuel, parseexec_succ]
    change toks.parseblock (fuel + 1) _ = _
    rw [parseblock_succ, ih hclose (by simp only [length_append, length_cons]; omega), ok_bind]
    refine parseredirs_complete (within_arrow_of_stop hrest).1 ?_
    rw [length_append]
    omega
  | simple items hlen =>
    simp only [Nonterminal.calls, Nonterminal.parse] at hfuel ⊢
    obtain ⟨fuel, rfl⟩ := exists_succ (show 0 < fuel by omega)
    have hopen : within [40] (itemToks items ++ rest) = false := by
      rcases items with _ | ⟨w | r, items⟩
      · exact (within_arrow_of_stop hrest).2
      · rfl
      · rcases r with ⟨a, w⟩
        cases a <;> rfl
    rw [parseexec_succ, if_neg (by rw [hopen]; decide)]
    exact parseargs_complete [] [] hrest (by rw [List.length_nil, Nat.zero_add]; exact hlen) (by omega) (by omega)

theorem parseline_iff (h : 4 * ts.length + 4 ≤ fuel) : toks.parseline fuel ts = .ok (c, []) ↔ Derives .line ts c := by
  constructor
  · intro hparse
    obtain ⟨us, hus, hd⟩ := ((parse_sound fuel).1 ts h).of_ok hparse
    rw [append_nil] at hus
    rwa [hus]
  · intro hd
    have := hd.parse (show Nonterminal.line.Follow [] from .inl rfl) (show Nonterminal.line.calls (ts ++ []).length ≤ fuel by rwa [append_nil])
    rwa [append_nil] at this

end Xv6.Sh
