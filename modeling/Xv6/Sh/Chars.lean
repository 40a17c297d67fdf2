import Xv6.Sh.Tokens
import Mathlib.Tactic.Linarith

/-!
# The parser on characters

`peek` and `gettoken` find the tokens of the line one after the other, without reading behind its NUL. So
the parser on the characters of a line does what the parser on its tokens does; its strings are marked by two
positions between which there are only characters of a word. The NULs that `nulterminate` writes are
therefore in no other string.
-/

namespace Xv6.Sh

open Lib

open List (getElem?_drop head?_drop length_cons length_map length_set mem_append mem_append_left
  mem_append_right mem_cons mem_cons_self)

/-! ### Two parsers side by side -/

section Simulation

variable {P P' W V : Type} {lex : Lexer P W} {lex' : Lexer P' V} {f : W → V} {G : W → Prop} {R : P → P' → Prop}
  {ps : P} {ps' : P'} {c ret : Cmd W} {argv : List W} {fuel : ℕ}

structure Sim (lex : Lexer P W) (lex' : Lexer P' V) (f : W → V) (G : W → Prop) (R : P → P' → Prop) : Prop where
  peek : ∀ {ps ps'} (set : List UInt8), R ps ps' → set ⊆ symbols → ∃ b qs qs',
    lex.peek ps set = .ok (b, qs) ∧ lex'.peek ps' set = .ok (b, qs') ∧ R qs qs'
  gettoken : ∀ {ps ps'}, R ps ps' → ∃ ret w v qs qs', lex.gettoken ps = .ok (ret, w, qs) ∧
    lex'.gettoken ps' = .ok (ret, v, qs') ∧ R qs qs' ∧ (ret = 97 → G w ∧ v = f w)

def Matches (f : W → V) (G : W → Prop) (R : P → P' → Prop) :
    Except Stop (Cmd W × P) → Except Stop (Cmd V × P') → Prop
  | .ok (c, ps), .ok (c', ps') => c' = c.map f ∧ (∀ w ∈ c.words, G w) ∧ R ps ps'
  | .error e, .error e' => e = e'
  | _, _ => False

variable {x : Except Stop (Cmd W × P)} {y : Except Stop (Cmd V × P')}

theorem Matches.cases (h : Matches f G R x y) :
    (∃ e, x = .error e ∧ y = .error e) ∨
      ∃ c ps ps', x = .ok (c, ps) ∧ y = .ok (c.map f, ps') ∧ (∀ w ∈ c.words, G w) ∧ R ps ps' := by
  rcases x with e | ⟨c, ps⟩ <;> rcases y with e' | ⟨c', ps'⟩
  · exact .inl ⟨e, rfl, congrArg _ (Eq.symm h)⟩
  · exact False.elim h
  · exact False.elim h
  · obtain ⟨rfl, hc, hps⟩ := h
    exact .inr ⟨c, ps, ps', rfl, rfl, hc, hps⟩

theorem Matches.bind
    {k : Cmd W × P → Except Stop (Cmd W × P)} {k' : Cmd V × P' → Except Stop (Cmd V × P')} (h : Matches f G R x y)
    (hk : ∀ c ps ps', (∀ w ∈ c.words, G w) → R ps ps' → Matches f G R (k (c, ps)) (k' (c.map f, ps'))) : Matches f G R (x >>= k) (y >>= k') := by
  obtain ⟨e, rfl, rfl⟩ | ⟨c, ps, ps', rfl, rfl, hc, hps⟩ := h.cases
  · rfl
  · exact hk c ps ps' hc hps

theorem map_setArgv : (c.setArgv argv).map f = (c.map f).setArgv (argv.map f) := by
  induction c with
  | redir c file mode fd ih => rw [Cmd.setArgv, Cmd.map, Cmd.map, Cmd.setArgv, ih]
  | _ => rfl

theorem words_setArgv (hargv : ∀ w ∈ argv, G w) (hc : ∀ w ∈ c.words, G w) : ∀ w ∈ (c.setArgv argv).words, G w := by
  induction c with
  | exec _ => exact hargv
  | redir c file mode fd ih =>
    intro w hw
    rw [Cmd.setArgv, Cmd.words, mem_append] at hw
    rw [Cmd.words] at hc
    rcases hw with hw | hw
    · exact ih (fun w hw => hc w (mem_append_left _ hw)) w hw
    · exact hc w (mem_append_right _ hw)
  | _ => exact hc

theorem endargs_sim (hc : ∀ w ∈ c.words, G w) (hps : R ps ps') :
    Matches f G R (Lexer.endargs argv c ps) (Lexer.endargs (argv.map f) (c.map f) ps') := by
  rw [Lexer.endargs, Lexer.endargs, length_map]
  split
  · exact ⟨rfl, hc, hps⟩
  · rfl

theorem map_congr_words {g : W → V} (h : ∀ w ∈ c.words, f w = g w) : c.map f = c.map g := by
  induction c with
  | exec argv => exact congrArg Cmd.exec (List.map_congr_left h)
  | redir c file mode fd ih =>
    rw [Cmd.map, Cmd.map, ih fun w hw => h w (mem_append_left _ hw), h file (mem_append_right _ (List.mem_singleton_self file))]
  | pipe left right ih ih' | list left right ih ih' =>
    rw [Cmd.map, Cmd.map, ih fun w hw => h w (mem_append_left _ hw), ih' fun w hw => h w (mem_append_right _ hw)]
  | back c ih => rw [Cmd.map, Cmd.map, ih h]

section Runs

variable (h : Sim lex lex' f G R)

include h

theorem parseredirs_sim (hc : ∀ w ∈ c.words, G w) (hps : R ps ps') :
    Matches f G R (lex.parseredirs fuel c ps) (lex'.parseredirs fuel (c.map f) ps') := by
  induction fuel generalizing c ps ps' with
  | zero => rfl
  | succ fuel ih =>
    obtain ⟨b, qs, qs', h1, h1', hqs⟩ := h.peek [60, 62] hps (by decide)
    obtain ⟨tok, _, _, rs, rs', h2, h2', hrs, -⟩ := h.gettoken hqs
    obtain ⟨ret, w, v, us, us', h3, h3', hus, hw⟩ := h.gettoken hrs
    simp only [Lexer.parseredirs, h1, h1', ok_bind]
    cases b with
    | false => exact ⟨rfl, hc, hqs⟩
    | true =>
      simp only [h2, h2', h3, h3', ok_bind, if_true]
      split
      · rfl
      rename_i hret
      obtain ⟨hG, rfl⟩ := hw (not_not.mp hret)
      have hwords : ∀ mode fd, ∀ w' ∈ (Cmd.redir c w mode fd).words, G w' := by
        intro mode fd w' hw'
        rw [Cmd.words, mem_append, List.mem_singleton] at hw'
        rcases hw' with hw' | rfl
        · exact hc w' hw'
        · exact hG
      split
      · exact ih (hwords _ _) hus
      · split
        · exact ih (hwords _ _) hus
        · split
          · exact ih (hwords _ _) hus
          · exact ih hc hus

theorem parseargs_sim (hargv : ∀ w ∈ argv, G w) (hc : ∀ w ∈ c.words, G w) (hps : R ps ps') :
    Matches f G R (lex.parseargs fuel argv c ps) (lex'.parseargs fuel (argv.map f) (c.map f) ps') := by
  induction fuel generalizing argv c ps ps' with
  | zero => rfl
  | succ fuel ih =>
    obtain ⟨b, qs, qs', h1, h1', hqs⟩ := h.peek [124, 41, 38, 59] hps (by decide)
    obtain ⟨tok, w, v, rs, rs', h2, h2', hrs, hw⟩ := h.gettoken hqs
    simp only [Lexer.parseargs, h1, h1', ok_bind]
    cases b with
    | true => exact endargs_sim hc hqs
    | false =>
      simp only [h2, h2', ok_bind, Bool.false_eq_true, if_false]
      split
      · exact endargs_sim hc hrs
      split
      · rfl
      rename_i htok
      obtain ⟨hG, rfl⟩ := hw (not_not.mp htok)
      have hargv' : ∀ w' ∈ argv ++ [w], G w' := by
        intro w' hw'
        rw [mem_append, List.mem_singleton] at hw'
        rcases hw' with hw' | rfl
        · exact hargv w' hw'
        · exact hG
      rw [length_map]
      split
      · simp only [List.length_append, length_map, List.length_singleton]
        split
        · rfl
        · have hmap : argv.map f ++ [f w] = (argv ++ [w]).map f := by simp
          rw [hmap, ← map_setArgv]
          refine (parseredirs_sim h (words_setArgv hargv' hc) hrs).bind fun c' qs qs' hc' hqs => ?_
          exact ih hargv' hc' hqs
      · rfl

theorem parsebacks_sim (hc : ∀ w ∈ c.words, G w) (hps : R ps ps') :
    Matches f G R (lex.parsebacks fuel c ps) (lex'.parsebacks fuel (c.map f) ps') := by
  induction fuel generalizing c ps ps' with
  | zero => rfl
  | succ fuel ih =>
    obtain ⟨b, qs, qs', h1, h1', hqs⟩ := h.peek [38] hps (by decide)
    obtain ⟨tok, _, _, rs, rs', h2, h2', hrs, -⟩ := h.gettoken hqs
    simp only [Lexer.parsebacks, h1, h1', ok_bind]
    cases b with
    | false => exact ⟨rfl, hc, hqs⟩
    | true =>
      simp only [h2, h2', ok_bind, if_true]
      exact ih (c := .back c) hc hrs

theorem parse_sim (fuel : ℕ) : (∀ ps ps', R ps ps' → Matches f G R (lex.parseline fuel ps) (lex'.parseline fuel ps')) ∧
    (∀ ps ps', R ps ps' → Matches f G R (lex.parsepipe fuel ps) (lex'.parsepipe fuel ps')) ∧
    (∀ ps ps', R ps ps' → Matches f G R (lex.parseblock fuel ps) (lex'.parseblock fuel ps')) ∧
    (∀ ps ps', R ps ps' → Matches f G R (lex.parseexec fuel ps) (lex'.parseexec fuel ps')) := by
  have happend : ∀ {c c' : Cmd W}, (∀ w ∈ c.words, G w) → (∀ w ∈ c'.words, G w) → ∀ w ∈ c.words ++ c'.words, G w := by
    intro c c' hc hc' w hw
    exact (List.mem_append.mp hw).elim (hc w) (hc' w)
  induction fuel with
  | zero =>
    refine ⟨fun _ _ _ => ?_, fun _ _ _ => ?_, fun _ _ _ => ?_, fun _ _ _ => ?_⟩
    · simp only [Lexer.parseline]
      rfl
    · simp only [Lexer.parsepipe]
      rfl
    · simp only [Lexer.parseblock]
      rfl
    · simp only [Lexer.parseexec]
      rfl
  | succ fuel ih =>
    obtain ⟨hline, hpipe, hblock, hexec⟩ := ih
    refine ⟨fun ps ps' hps => ?_, fun ps ps' hps => ?_, fun ps ps' hps => ?_, fun ps ps' hps => ?_⟩
    · rw [Lexer.parseline, Lexer.parseline]
      refine (hpipe ps ps' hps).bind fun c ps ps' hc hps => ?_
      refine (parsebacks_sim h hc hps).bind fun c ps ps' hc hps => ?_
      obtain ⟨b, qs, qs', h1, h1', hqs⟩ := h.peek [59] hps (by decide)
      obtain ⟨tok, _, _, rs, rs', h2, h2', hrs, -⟩ := h.gettoken hqs
      simp only [h1, h1', ok_bind]
      cases b with
      | false => exact ⟨rfl, hc, hqs⟩
      | true =>
        simp only [h2, h2', ok_bind, if_true]
        exact (hline rs rs' hrs).bind fun c' ps ps' hc' hps => ⟨rfl, happend hc hc', hps⟩
    · rw [Lexer.parsepipe, Lexer.parsepipe]
      refine (hexec ps ps' hps).bind fun c ps ps' hc hps => ?_
      obtain ⟨b, qs, qs', h1, h1', hqs⟩ := h.peek [124] hps (by decide)
      obtain ⟨tok, _, _, rs, rs', h2, h2', hrs, -⟩ := h.gettoken hqs
      simp only [h1, h1', ok_bind]
      cases b with
      | false => exact ⟨rfl, hc, hqs⟩
      | true =>
        simp only [h2, h2', ok_bind, if_true]
        exact (hpipe rs rs' hrs).bind fun c' ps ps' hc' hps => ⟨rfl, happend hc hc', hps⟩
    · obtain ⟨b, qs, qs', h1, h1', hqs⟩ := h.peek [40] hps (by decide)
      obtain ⟨tok, _, _, rs, rs', h2, h2', hrs, -⟩ := h.gettoken hqs
      simp only [Lexer.parseblock, h1, h1', ok_bind]
      cases b with
      | false => rfl
      | true =>
        simp only [h2, h2', ok_bind, if_true]
        refine (hline rs rs' hrs).bind fun c ps ps' hc hps => ?_
        obtain ⟨b, qs, qs', h1, h1', hqs⟩ := h.peek [41] hps (by decide)
        obtain ⟨tok, _, _, rs, rs', h2, h2', hrs, -⟩ := h.gettoken hqs
        simp only [h1, h1', ok_bind]
        cases b with
        | false => rfl
        | true =>
          simp only [h2, h2', ok_bind, if_true]
          exact parseredirs_sim h hc hrs
    · obtain ⟨b, qs, qs', h1, h1', hqs⟩ := h.peek [40] hps (by decide)
      simp only [Lexer.parseexec, h1, h1', ok_bind]
      cases b with
      | true =>
        simp only [if_true]
        exact hblock qs qs' hqs
      | false =>
        simp only [Bool.false_eq_true, if_false]
        have hnil : ∀ w ∈ ([] : List W), G w := fun w hw => absurd hw (by simp)
        refine (parseredirs_sim h (c := .exec []) hnil hqs).bind fun c ps ps' hc hps => ?_
        exact parseargs_sim h hnil hc hps

end Runs

end Simulation

/-! ### The tokens of a line -/

section Lexing

variable {l d cs : List UInt8} {s q k : ℕ} {c : UInt8} {p : UInt8 → Bool}

theorem lt_of_drop (h : l.drop s = c :: cs) : s < l.length := by
  by_contra hge
  rw [List.drop_eq_nil_of_le (by omega)] at h
  cases h

theorem deref_of_drop (h : l.drop s = c :: cs) : deref (l ++ [0]) s = .ok c := by
  have hget : l[s]? = some c := by
    rw [← head?_drop, h]
    rfl
  rw [deref, List.getElem?_append_left (lt_of_drop h), hget]

theorem deref_end (hs : s ≤ l.length) (h : l.drop s = []) : deref (l ++ [0]) s = .ok 0 := by
  have hlen : s = l.length := le_antisymm hs (List.drop_eq_nil_iff.mp h)
  rw [deref, hlen, List.getElem?_append_right le_rfl, Nat.sub_self]
  rfl

theorem drop_succ_of_drop (h : l.drop s = c :: cs) : l.drop (s + 1) = cs := by
  rw [← List.tail_drop, h]
  rfl

theorem skip_spec (p : UInt8 → Bool) (hs : s ≤ l.length) : skip (l ++ [0]) l.length p s = .ok (s + ((l.drop s).takeWhile p).length) := by
  have hloop : ∀ n s, n = l.length - s → s ≤ l.length → skipLoop (l ++ [0]) l.length p n s = .ok (s + ((l.drop s).takeWhile p).length) := by
    intro n
    induction n with
    | zero =>
      intro s hn hs
      rw [List.drop_eq_nil_of_le (by omega)]
      rfl
    | succ n ih =>
      intro s hn hs
      rw [skipLoop, if_pos (by omega)]
      cases hd : l.drop s with
      | nil => exact absurd (List.drop_eq_nil_iff.mp hd) (by omega)
      | cons c cs =>
        rw [deref_of_drop hd, ok_bind]
        split
        · next hp =>
          rw [ih (s + 1) (by omega) (by omega), drop_succ_of_drop hd, List.takeWhile_cons_of_pos hp, length_cons]
          congr 1
          omega
        · next hp =>
          rw [List.takeWhile_cons_of_neg hp]
          rfl
  exact hloop _ s rfl hs

theorem drop_takeWhile (p : UInt8 → Bool) (l : List UInt8) : l.drop (l.takeWhile p).length = l.dropWhile p := by
  have h : (l.takeWhile p ++ l.dropWhile p).drop (l.takeWhile p).length = l.dropWhile p := List.drop_left
  rwa [List.takeWhile_append_dropWhile] at h

theorem drop_skip (p : UInt8 → Bool) (s : ℕ) (l : List UInt8) : l.drop (s + ((l.drop s).takeWhile p).length) = (l.drop s).dropWhile p := by
  rw [← List.drop_drop, drop_takeWhile]

theorem skip_le (p : UInt8 → Bool) (hs : s ≤ l.length) : s + ((l.drop s).takeWhile p).length ≤ l.length := by
  have := (List.takeWhile_prefix p (l := l.drop s)).length_le
  rw [List.length_drop] at this
  omega

theorem isWhite_of_dropWhile (h : l.dropWhile isWhite = c :: cs) : isWhite c = false := by
  have := List.head?_dropWhile_not isWhite l
  rw [h] at this
  simpa using this

theorem tokens_dropWhile (l : List UInt8) : tokens (l.dropWhile isWhite) = tokens l := by
  induction l with
  | nil => rfl
  | cons c cs ih =>
    by_cases hc : isWhite c = true
    · rw [List.dropWhile_cons_of_pos hc, ih, tokens, if_pos hc]
    · rw [List.dropWhile_cons_of_neg hc]

def At (l : List UInt8) (s : ℕ) (ts : List Tok) : Prop := s ≤ l.length ∧ ts = tokens (l.drop s)

theorem At.skip (hs : s ≤ l.length) : At l (s + ((l.drop s).takeWhile isWhite).length) (tokens (l.drop s)) :=
  ⟨skip_le _ hs, by rw [drop_skip, tokens_dropWhile]⟩

def textOf (l : List UInt8) (w : Span) : List UInt8 := (l.drop w.q).take (w.eq - w.q)

structure Marks (l : List UInt8) (w : Span) : Prop where
  le : w.q ≤ w.eq
  lt : w.eq ≤ l.length
  word : ∀ c ∈ textOf l w, isWord c = true
  stop : ∀ c, l[w.eq]? = some c → isWord c = false

theorem Marks.lt_buf {l : List UInt8} {w : Span} (h : Marks l w) : w.eq < (l ++ [0]).length := by
  have := h.lt
  rw [List.length_append, List.length_singleton]
  omega

theorem Marks.not_end {l : List UInt8} {w w' : Span} (h : Marks l w) (h' : Marks l w') (hle : w.q ≤ w'.eq) : ¬w'.eq < w.eq := by
  intro hlt
  have hi : w'.eq < l.length := by
    have := h.lt
    omega
  have hget : (textOf l w)[w'.eq - w.q]? = some l[w'.eq] := by
    rw [textOf, List.getElem?_take_of_lt (by omega), getElem?_drop, Nat.add_sub_cancel' hle, List.getElem?_eq_getElem hi]
  exact absurd (h.word _ (List.mem_of_getElem? hget)) (by rw [h'.stop _ (List.getElem?_eq_getElem hi)]; decide)

theorem isWord_of_symbolTok (hw : isWhite c = false) (h62 : c ≠ 62) (h : symbolTok c = none) : isWord c = true := by
  have hsym : symbols.contains c = false := by
    unfold symbolTok at h
    split_ifs at h
    simp_all [symbols]
  rw [isWord, hsym, show whitespace.contains c = false from hw]
  rfl

theorem symbolTok_some {t : Tok} (h : symbolTok c = some t) :
    (c = 124 ∨ c = 40 ∨ c = 41 ∨ c = 59 ∨ c = 38 ∨ c = 60) ∧ t.ret = c ∧ t.first = c ∧ ∀ w, t ≠ .word w := by
  unfold symbolTok at h
  split_ifs at h <;> · obtain rfl := Option.some.inj h; simp_all [Tok.ret, Tok.first]

theorem symbolTok_none (h : symbolTok c = none) : ¬(c = 124 ∨ c = 40 ∨ c = 41 ∨ c = 59 ∨ c = 38 ∨ c = 60) := by
  unfold symbolTok at h
  split_ifs at h
  simp_all

@[simp] theorem tokens_nil : tokens [] = [] := by rw [tokens]

theorem tokens_gtgt : tokens (62 :: 62 :: cs) = .gtgt :: tokens cs := by
  rw [tokens, if_neg (by decide), if_pos rfl]
  rfl

theorem tokens_gt (h : cs.head? ≠ some 62) : tokens (62 :: cs) = .gt :: tokens cs := by
  rw [tokens, if_neg (by decide), if_pos rfl, if_neg h]

theorem tokens_symbol {t : Tok} (h : symbolTok c = some t) : tokens (c :: cs) = t :: tokens cs := by
  have hc := (symbolTok_some h).1
  have hwhite : ¬isWhite c = true ∧ c ≠ 62 := by rcases hc with rfl | rfl | rfl | rfl | rfl | rfl <;> decide
  rw [tokens, if_neg hwhite.1, if_neg hwhite.2, h]

theorem tokens_word (hw : isWord c = true) : tokens (c :: cs) = .word (c :: cs.takeWhile isWord) :: tokens (cs.dropWhile isWord) := by
  have hwhite : ¬isWhite c = true := by
    intro h
    rw [isWord, show whitespace.contains c = true from h] at hw
    cases hw
  have h62 : c ≠ 62 := by
    rintro rfl
    exact absurd hw (by decide)
  have hsym : symbolTok c = none := by
    cases ht : symbolTok c with
    | none => rfl
    | some t =>
      rcases (symbolTok_some ht).1 with rfl | rfl | rfl | rfl | rfl | rfl <;> exact absurd hw (by decide)
  rw [tokens, if_neg hwhite, if_neg h62, hsym]

/-- What a token begins with. -/
inductive Begins (c : UInt8) (cs : List UInt8) : Prop
  | gtgt (cs') (hc : c = 62) (hcs : cs = 62 :: cs') (h : tokens (c :: cs) = .gtgt :: tokens cs')
  | gt (hc : c = 62) (hcs : cs.head? ≠ some 62) (h : tokens (c :: cs) = .gt :: tokens cs)
  | symbol (t) (hc : symbolTok c = some t) (h : tokens (c :: cs) = t :: tokens cs)
  | word (hc : c ≠ 62) (hn : symbolTok c = none) (hw : isWord c = true)
      (h : tokens (c :: cs) = .word (c :: cs.takeWhile isWord) :: tokens (cs.dropWhile isWord))

variable (cs) in
theorem begins (hw : isWhite c = false) : Begins c cs := by
  by_cases h62 : c = 62
  · subst h62
    rcases cs with _ | ⟨c', cs⟩
    · exact .gt rfl (by simp) (tokens_gt (by simp))
    · by_cases hc : c' = 62
      · subst hc
        exact .gtgt cs rfl rfl tokens_gtgt
      · have hne : (c' :: cs).head? ≠ some 62 := by simpa using hc
        exact .gt rfl hne (tokens_gt hne)
  · cases ht : symbolTok c with
    | some t => exact .symbol t ht (tokens_symbol ht)
    | none =>
      have hword := isWord_of_symbolTok hw h62 ht
      exact .word h62 ht hword (tokens_word hword)

variable (hnul : 0 ∉ l)

include hnul

theorem ne_zero_of_drop (h : l.drop s = c :: cs) : c ≠ 0 := by
  rintro rfl
  refine hnul (List.mem_of_mem_drop (i := s) ?_)
  rw [h]
  exact mem_cons_self

theorem peek_sim (set : List UInt8) (hs : s ≤ l.length) (hset : set ⊆ symbols) : peek (l ++ [0]) l.length s set =
      .ok (within set (tokens (l.drop s)), s + ((l.drop s).takeWhile isWhite).length) := by
  rw [peek, skip_spec _ hs, ok_bind]
  have hdrop := drop_skip isWhite s l
  cases hd : (l.drop s).dropWhile isWhite with
  | nil =>
    rw [hd] at hdrop
    rw [deref_end (skip_le _ hs) hdrop, ok_bind, ← tokens_dropWhile, hd, tokens_nil]
    simp [within]
  | cons c cs =>
    rw [hd] at hdrop
    have h0 := ne_zero_of_drop hnul hdrop
    have hmem : decide (c ≠ 0 ∧ c ∈ set) = decide (c ∈ set) := by simp [h0]
    rw [deref_of_drop hdrop, ok_bind, ← tokens_dropWhile, hd, hmem]
    rcases begins cs (isWhite_of_dropWhile hd) with ⟨_, rfl, -, h⟩ | ⟨rfl, -, h⟩ | ⟨t, ht, h⟩ | ⟨-, -, hw, h⟩ <;> rw [h]
    · simp [within, Tok.first]
    · simp [within, Tok.first]
    · obtain ⟨-, -, hfirst, hword⟩ := symbolTok_some ht
      cases t <;> simp_all [within]
    · have hns : c ∉ set := by
        intro hc
        rw [isWord, Bool.and_eq_true, Bool.not_eq_true', Bool.not_eq_true'] at hw
        exact absurd (List.contains_iff_mem.mpr (hset hc)) (by rw [hw.2]; decide)
      simp [within, hns]

theorem gettoken_sim (hs : s ≤ l.length) : ∃ ret w v s' ts', gettoken (l ++ [0]) l.length s = .ok (ret, w, s') ∧
    toks.gettoken (tokens (l.drop s)) = .ok (ret, v, ts') ∧ At l s' ts' ∧ (ret = 97 → Marks l w ∧ v = textOf l w) := by
  have hq := skip_le isWhite hs
  have hdrop := drop_skip isWhite s l
  rw [gettoken, skip_spec _ hs, ok_bind, ← tokens_dropWhile]
  generalize s + ((l.drop s).takeWhile isWhite).length = q at hq hdrop ⊢
  cases hd : (l.drop s).dropWhile isWhite with
  | nil =>
    rw [hd] at hdrop
    have hend := At.skip hq
    rw [hdrop, tokens_nil] at hend
    rw [deref_end hq hdrop, ok_bind, tokens_nil]
    simp only [if_true, ok_bind, skip_spec isWhite hq, hdrop]
    exact ⟨0, _, _, _, _, rfl, rfl, hend, fun h => absurd h (by decide)⟩
  | cons c cs =>
    rw [hd] at hdrop
    have hlt := lt_of_drop hdrop
    have hsucc := drop_succ_of_drop hdrop
    have hat := At.skip (l := l) (s := q + 1) hlt
    have hskip := skip_spec isWhite (show q + 1 ≤ l.length from hlt)
    rw [hsucc] at hat hskip
    rw [deref_of_drop hdrop, ok_bind]
    simp only [if_neg (ne_zero_of_drop hnul hdrop)]
    rcases begins cs (isWhite_of_dropWhile hd) with ⟨cs', rfl, rfl, h⟩ | ⟨rfl, hcs, h⟩ | ⟨t, ht, h⟩ | ⟨h62, ht, hw, h⟩ <;> rw [h]
    · rw [if_neg (by decide), if_pos rfl]
      have hlt' := lt_of_drop hsucc
      have hat' := At.skip (l := l) (s := q + 2) hlt'
      have hskip' := skip_spec isWhite (show q + 2 ≤ l.length from hlt')
      rw [drop_succ_of_drop hsucc] at hat' hskip'
      rw [deref_of_drop hsucc, ok_bind]
      simp only [if_true, ok_bind, hskip']
      exact ⟨43, _, _, _, _, rfl, rfl, hat', fun h => absurd h (by decide)⟩
    · have hnext : ∃ c', deref (l ++ [0]) (q + 1) = .ok c' ∧ c' ≠ 62 := by
        rcases cs with _ | ⟨c', cs'⟩
        · exact ⟨0, deref_end hlt hsucc, by decide⟩
        · exact ⟨c', deref_of_drop hsucc, by simpa using hcs⟩
      obtain ⟨c', hderef, hc'⟩ := hnext
      rw [if_neg (by decide), if_pos rfl, hderef, ok_bind]
      simp only [if_neg hc', ok_bind, hskip]
      exact ⟨62, _, _, _, _, rfl, rfl, hat, fun h => absurd h (by decide)⟩
    · obtain ⟨hc, hret, -, -⟩ := symbolTok_some ht
      simp only [if_pos hc, ok_bind, hskip, toks_gettoken_cons, hret]
      refine ⟨c, _, _, _, _, rfl, rfl, hat, fun h => ?_⟩
      rw [h] at hc
      exact absurd hc (by decide)
    · have heq := skip_le isWord hq
      have hdropw := drop_skip isWord q l
      rw [hdrop, List.takeWhile_cons_of_pos hw] at heq hdropw
      rw [List.dropWhile_cons_of_pos hw] at hdropw
      have hatw := At.skip heq
      have hskipw := skip_spec isWhite heq
      rw [hdropw] at hatw hskipw
      simp only [if_neg (symbolTok_none ht), if_neg h62, skip_spec isWord hq, ok_bind, hdrop,
        List.takeWhile_cons_of_pos hw, hskipw, toks_gettoken_cons]
      have htext : textOf l ⟨q, q + (c :: cs.takeWhile isWord).length⟩ = c :: cs.takeWhile isWord := by
        change (l.drop q).take (q + _ - q) = _
        rw [hdrop, Nat.add_sub_cancel_left, length_cons, List.take_succ_cons]
        exact congrArg _ (List.prefix_iff_eq_take.mp (List.takeWhile_prefix isWord)).symm
      refine ⟨97, _, _, _, _, rfl, rfl, hatw, fun _ => ⟨⟨Nat.le_add_right .., heq, ?_, ?_⟩, htext.symm⟩⟩
      · rw [htext]
        intro b hb
        rcases List.mem_cons.mp hb with rfl | hb
        · exact hw
        · exact List.all_eq_true.mp List.all_takeWhile b hb
      · intro b hb
        rw [← head?_drop, hdropw] at hb
        have := List.head?_dropWhile_not isWord cs
        rw [hb] at this
        simpa using this

theorem chars_sim : Sim (chars (l ++ [0]) l.length) toks (textOf l) (Marks l) (At l) where
  peek := by
    rintro s ts set ⟨hs, rfl⟩ hset
    exact ⟨_, _, _, peek_sim hnul set hs hset, rfl, At.skip hs⟩
  gettoken := by
    rintro s ts ⟨hs, rfl⟩
    exact gettoken_sim hnul hs

end Lexing

/-! ### The strings -/

section Strings

variable {l buf : List UInt8} {ws : List Span} {w : Span} {c : Cmd Span} {i : ℕ}

def ends (ws : List Span) (buf : List UInt8) : List UInt8 := ws.foldl (fun buf w => buf.set w.eq 0) buf

@[simp] theorem length_ends : (ends ws buf).length = buf.length := by
  induction ws generalizing buf with
  | nil => rfl
  | cons w ws ih => exact ih.trans (length_set ..)

theorem ends_append {ws' : List Span} : ends (ws ++ ws') buf = ends ws' (ends ws buf) := List.foldl_append ..

theorem nulterminate_eq (h : ∀ w ∈ c.words, w.eq < buf.length) : nulterminate c buf = .ok (ends c.words buf) := by
  induction c generalizing buf with
  | exec argv =>
    change argv.foldlM (fun buf w => terminate buf w.eq) buf = _
    change ∀ w ∈ argv, _ at h
    change _ = Except.ok (ends argv buf)
    induction argv generalizing buf with
    | nil => rfl
    | cons w ws ih =>
      rw [List.foldlM_cons, terminate, if_pos (h w mem_cons_self), ok_bind]
      refine ih fun w' hw' => ?_
      rw [length_set]
      exact h w' (List.mem_cons_of_mem _ hw')
  | redir c file mode fd ih =>
    rw [Cmd.words] at h ⊢
    rw [nulterminate, ih fun w hw => h w (mem_append_left _ hw), ok_bind, ends_append, terminate, length_ends,
      if_pos (h file (mem_append_right _ (List.mem_singleton_self file)))]
    rfl
  | pipe left right ih ih' | list left right ih ih' =>
    rw [Cmd.words] at h ⊢
    rw [nulterminate, ih fun w hw => h w (mem_append_left _ hw), ok_bind, ends_append, ih']
    intro w hw
    rw [length_ends]
    exact h w (mem_append_right _ hw)
  | back c ih => exact ih h

theorem getElem?_ends_of_mem (h : ∃ w ∈ ws, w.eq = i) (hi : i < buf.length) : (ends ws buf)[i]? = some 0 := by
  have hkeep : ∀ (ws : List Span) (buf : List UInt8), buf[i]? = some 0 → (ends ws buf)[i]? = some 0 := by
    intro ws
    induction ws with
    | nil => exact fun _ h => h
    | cons w ws ih =>
      intro buf hbuf
      refine ih _ ?_
      rw [List.getElem?_set]
      split
      · next heq =>
        have := (List.getElem?_eq_some_iff.mp hbuf).1
        rw [if_pos (by omega)]
      · exact hbuf
  induction ws generalizing buf with
  | nil => exact absurd h (by simp)
  | cons w ws ih =>
    by_cases hw : ∃ w ∈ ws, w.eq = i
    · exact ih hw (by rwa [length_set])
    · obtain ⟨w', hw', rfl⟩ := h
      rcases List.mem_cons.mp hw' with rfl | hw'
      · refine hkeep ws _ ?_
        rw [List.getElem?_set_self hi]
      · exact absurd ⟨w', hw', rfl⟩ hw

theorem getElem?_ends_of_not_mem (h : ∀ w ∈ ws, w.eq ≠ i) : (ends ws buf)[i]? = buf[i]? := by
  induction ws generalizing buf with
  | nil => rfl
  | cons w ws ih =>
    refine (ih fun w' hw' => h w' (List.mem_cons_of_mem _ hw')).trans ?_
    exact List.getElem?_set_ne (h w mem_cons_self)

/-- **Each string is still there when all are terminated.** -/
theorem cstrAt_ends (hws : ∀ w ∈ ws, Marks l w) (hw : w ∈ ws) (hnul : 0 ∉ l) : cstrAt (ends ws (l ++ [0])) w.q = textOf l w := by
  have hm := hws w hw
  have hlen : (textOf l w).length = w.eq - w.q := by
    have := hm.le
    have := hm.lt
    rw [textOf, List.length_take, List.length_drop]
    omega
  have hsame : ∀ i, w.q ≤ i → i < w.eq → (ends ws (l ++ [0]))[i]? = l[i]? := by
    intro i h1 h2
    rw [getElem?_ends_of_not_mem, List.getElem?_append_left (by have := hm.lt; omega)]
    rintro w' hw' rfl
    exact hm.not_end (hws w' hw') h1 h2
  have hend : (ends ws (l ++ [0]))[w.eq]? = some 0 := getElem?_ends_of_mem ⟨w, hw, rfl⟩ hm.lt_buf
  have hsplit : (ends ws (l ++ [0])).drop w.q = textOf l w ++ (ends ws (l ++ [0])).drop w.eq := by
    have htake : ((ends ws (l ++ [0])).drop w.q).take (w.eq - w.q) = textOf l w := by
      refine List.ext_getElem? fun k => ?_
      by_cases hk : k < w.eq - w.q
      · rw [List.getElem?_take_of_lt hk, getElem?_drop, hsame _ (by omega) (by omega), textOf, List.getElem?_take_of_lt hk, getElem?_drop]
      · rw [List.getElem?_eq_none (by rw [List.length_take]; omega), List.getElem?_eq_none (by omega)]
    conv_lhs => rw [← List.take_append_drop (w.eq - w.q) ((ends ws (l ++ [0])).drop w.q)]
    rw [htake, List.drop_drop, Nat.add_sub_cancel' hm.le]
  have hnz : ∀ c ∈ textOf l w, decide (c ≠ 0) = true := by
    intro c hc
    refine decide_eq_true ?_
    rintro rfl
    exact hnul (List.mem_of_mem_drop (List.mem_of_mem_take hc))
  obtain ⟨rest, hrest⟩ : ∃ rest, (ends ws (l ++ [0])).drop w.eq = 0 :: rest := by
    rw [← head?_drop] at hend
    exact List.head?_eq_some_iff.mp hend
  rw [cstrAt, hsplit, List.takeWhile_append_of_pos hnz, hrest, List.takeWhile_cons_of_neg (by decide), List.append_nil]

end Strings

/-! ### `parsecmd` -/

theorem length_tokens_le (l : List UInt8) : (tokens l).length ≤ l.length := by
  induction hn : l.length using Nat.strong_induction_on generalizing l with
  | _ n ih =>
    subst hn
    rcases l with _ | ⟨c, cs⟩
    · exact (congrArg List.length tokens_nil).le
    have hcs := ih cs.length (by simp) cs rfl
    by_cases hwhite : isWhite c = true
    · rw [tokens, if_pos hwhite, length_cons]
      omega
    rcases begins cs (Bool.not_eq_true _ ▸ hwhite) with ⟨cs', -, rfl, h⟩ | ⟨-, -, h⟩ | ⟨t, -, h⟩ | ⟨-, -, -, h⟩ <;>
      rw [h] <;> simp only [length_cons] at ih hcs ⊢
    · have := ih cs'.length (by omega) cs' rfl
      omega
    · omega
    · omega
    · have hle := (List.dropWhile_suffix isWord (l := cs)).length_le
      have := ih (cs.dropWhile isWord).length (by omega) _ rfl
      omega

theorem dropWhile_eq_nil_of_tokens {l : List UInt8} (h : tokens l = []) : l.dropWhile isWhite = [] := by
  rw [← tokens_dropWhile] at h
  cases hd : l.dropWhile isWhite with
  | nil => rfl
  | cons c cs =>
    rw [hd] at h
    rcases begins cs (isWhite_of_dropWhile hd) with ⟨_, -, -, h'⟩ | ⟨-, -, h'⟩ | ⟨_, -, h'⟩ | ⟨-, -, -, h'⟩ <;>
      exact absurd (h' ▸ h) (by simp)

theorem strlen_buf (line : Line) : strlen line.buf = line.chars.length := by
  have hnz : ∀ c ∈ line.chars, decide (c ≠ 0) = true := by
    intro c hc
    refine decide_eq_true ?_
    rintro rfl
    exact line.no_nul hc
  rw [strlen, cstrAt, Line.buf, List.drop_zero, List.takeWhile_append_of_pos hnz, List.takeWhile_cons_of_neg (by decide), List.append_nil]

theorem parseline_sim (line : Line) : Matches (textOf line.chars) (Marks line.chars) (At line.chars)
    ((chars line.buf line.chars.length).parseline (4 * line.chars.length + 4) 0)
    (toks.parseline (4 * line.chars.length + 4) (tokens line.chars)) :=
  (parse_sim (chars_sim line.no_nul) _).1 0 _ ⟨Nat.zero_le _, rfl⟩

theorem parsecmd_spec (line : Line) :
    parsecmd line = match toks.parseline (4 * line.chars.length + 4) (tokens line.chars) with
      | .ok (c, []) => .ok c
      | .ok (_, _ :: _) => .error (.panic .leftovers)
      | .error e => .error e := by
  rw [parsecmd]
  simp only [strlen_buf]
  obtain ⟨e, hx, hy⟩ | ⟨c, s, _, hx, hy, hwords, hs, rfl⟩ := (parseline_sim line).cases
  · rw [hx, hy]
    rfl
  rw [hx, hy, ok_bind]
  dsimp only
  rw [Line.buf, peek_sim line.no_nul [] hs (by simp), ok_bind]
  dsimp only
  have hdrop := drop_skip isWhite s line.chars
  have hle := skip_le isWhite hs
  cases hts : tokens (line.chars.drop s) with
  | nil =>
    rw [dropWhile_eq_nil_of_tokens hts, List.drop_eq_nil_iff] at hdrop
    rw [if_pos (le_antisymm hle hdrop), nulterminate_eq fun w hw => (hwords w hw).lt_buf, ok_bind]
    exact congrArg Except.ok (map_congr_words fun w hw => cstrAt_ends hwords hw line.no_nul)
  | cons t ts =>
    rw [if_neg]
    intro heq
    rw [List.drop_eq_nil_of_le heq.ge] at hdrop
    rw [← tokens_dropWhile, ← hdrop, tokens_nil] at hts
    cases hts

/-- **The parser accepts exactly the lines of the grammar**, and returns the commands they stand for. Otherwise it ends in a panic: it
never runs on, reads behind the NUL, or writes past the end of `argv`. -/
theorem parsecmd_accepts (line : Line) : (∀ c, parsecmd line = .ok c ↔ Derives .line (tokens line.chars) c) ∧
      ∀ e, parsecmd line = .error e → ∃ p, e = .panic p := by
  have hfuel : 4 * (tokens line.chars).length + 4 ≤ 4 * line.chars.length + 4 := by
    have := length_tokens_le line.chars
    omega
  have hsound := (parse_sound (4 * line.chars.length + 4)).1 (tokens line.chars) hfuel
  rw [parsecmd_spec]
  constructor
  · intro c
    rw [← parseline_iff hfuel]
    cases toks.parseline (4 * line.chars.length + 4) (tokens line.chars) with
    | error e => simp
    | ok r =>
      rcases r with ⟨c', _ | ⟨t, ts⟩⟩ <;> simp
  · intro e he
    cases hp : toks.parseline (4 * line.chars.length + 4) (tokens line.chars) with
    | error e' =>
      rw [hp] at he
      obtain rfl := Except.error.inj he
      exact hsound.of_error hp
    | ok r =>
      rw [hp] at he
      rcases r with ⟨c', _ | ⟨t, ts⟩⟩
      · cases he
      · exact ⟨_, (Except.error.inj he).symm⟩

/-- **To terminate the strings in place is safe**, on every line that is accepted. The words of the tree are the word tokens of the line,
each is terminated and still reads as its token, and nothing else is written. -/
theorem nulterminate_safe (line : Line) {c : Cmd (List UInt8)} (h : parsecmd line = .ok c) :
    ∃ cmd s buf, (chars line.buf (strlen line.buf)).parseline (4 * strlen line.buf + 4) 0 = .ok (cmd, s) ∧
      toks.parseline (4 * strlen line.buf + 4) (tokens line.chars) = .ok (cmd.map (textOf line.chars), []) ∧
      nulterminate cmd line.buf = .ok buf ∧ c = cmd.map (fun w => cstrAt buf w.q) ∧ buf.length = line.buf.length ∧
      (∀ w ∈ cmd.words, cstrAt buf w.q = textOf line.chars w ∧ buf[w.eq]? = some 0 ∧ w.eq < line.buf.length ∧
        ∀ w' ∈ cmd.words, ¬(w.q ≤ w'.eq ∧ w'.eq < w.eq)) ∧ ∀ i, (∀ w ∈ cmd.words, w.eq ≠ i) → buf[i]? = line.buf[i]? := by
  have hspec := parsecmd_spec line
  rw [h] at hspec
  rw [strlen_buf]
  obtain ⟨e, -, hy⟩ | ⟨cmd, s, ts, hx, hy, hwords, -⟩ := (parseline_sim line).cases
  · rw [hy] at hspec
    cases hspec
  rw [hy] at hspec
  cases ts with
  | cons t ts => cases hspec
  | nil =>
    have hlt : ∀ w ∈ cmd.words, w.eq < line.buf.length := fun w hw => (hwords w hw).lt_buf
    have hcstr : ∀ w ∈ cmd.words, cstrAt (ends cmd.words line.buf) w.q = textOf line.chars w :=
      fun w hw => cstrAt_ends hwords hw line.no_nul
    refine ⟨cmd, s, ends cmd.words line.buf, hx, hy, nulterminate_eq hlt, ?_, length_ends, fun w hw => ?_,
      fun i hi => getElem?_ends_of_not_mem hi⟩
    · rw [map_congr_words hcstr]
      exact Except.ok.inj hspec
    · exact ⟨hcstr w hw, getElem?_ends_of_mem ⟨w, hw, rfl⟩ (hlt w hw), hlt w hw,
        fun w' hw' hin => (hwords w hw).not_end (hwords w' hw') hin.1 hin.2⟩

/-- In `a>b` the NUL for the first word is written over the `>`. -/
theorem nulterminate_safe_redir : ∃ cmd s buf, (chars [97, 62, 98, 0] 3).parseline 16 0 = .ok (cmd, s) ∧
    nulterminate cmd [97, 62, 98, 0] = .ok buf ∧ ∀ w ∈ cmd.words, cstrAt buf w.q = textOf [97, 62, 98] w := by
  obtain ⟨cmd, s, buf, hcmd, -, hbuf, -, -, hwords, -⟩ :=
    nulterminate_safe ⟨[97, 62, 98], by decide⟩ (c := .redir (.exec [[97]]) [98] (O_WRONLY ||| O_CREATE ||| O_TRUNC) 1) (by decide)
  exact ⟨cmd, s, buf, hcmd, hbuf, fun w hw => (hwords w hw).1⟩

end Xv6.Sh
