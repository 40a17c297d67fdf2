import Mathlib.Data.Fintype.Card
import Mathlib.Data.Fintype.EquivFin
import Mathlib.Data.List.Nodup
import Xv6.Lib.Exclusive
import Xv6.Virtio.Driver

/-!
# Descriptors and the requests they belong to

What the functions on descriptors do, in closed form: `Xv6.Virtio.Disk.mark` takes descriptors and
`Xv6.Virtio.Disk.clear` gives them back. A call of `alloc3_desc` that runs out of descriptors on the
way gives back those it has got (`Xv6.Virtio.alloc3Desc_cases`), and `free_chain` gives back the
three of a chain that is formatted (`Xv6.Virtio.Linked.freeChain`).
-/

namespace Xv6.Virtio

open Lib Function

variable {B P : Type} {d d' : Disk B} {i : Fin NUM} {l l' : List (Fin NUM)} {r r' : Req B} {write : Bool}

/-! ### Taking and giving back -/

def Disk.mark (d : Disk B) (l : List (Fin NUM)) : Disk B :=
  { d with free := fun i => d.free i && decide (i ∉ l) }

def Disk.clear (d : Disk B) (l : List (Fin NUM)) : Disk B :=
  { d with
    desc := fun i => if i ∈ l then Desc.zero else d.desc i
    free := fun i => d.free i || decide (i ∈ l) }

theorem mark_nil : d.mark [] = d := by
  simp [Disk.mark]

theorem mark_mark : (d.mark l).mark l' = d.mark (l ++ l') := by
  simp [Disk.mark, Bool.and_assoc]

theorem clear_nil : d.clear [] = d := by
  simp [Disk.clear]

theorem clear_clear : (d.clear l).clear l' = d.clear (l ++ l') := by
  simp only [Disk.clear, List.mem_append, Bool.or_assoc, Bool.decide_or, Disk.mk.injEq, and_true]
  funext j
  by_cases hj : j ∈ l <;> by_cases hj' : j ∈ l' <;> simp [hj, hj']

theorem free_clear_mark (h : ∀ i ∈ l, d.free i = true) : ((d.mark l).clear l).free = d.free := by
  funext i
  simp only [Disk.clear, Disk.mark]
  by_cases hi : i ∈ l
  · simp [hi, h i hi]
  · simp [hi]

theorem allocDesc_cases : (∃ i, allocDesc d = some (i, d.mark [i]) ∧ d.free i = true) ∨ allocDesc d = none := by
  rcases hf : (List.finRange NUM).find? d.free with _ | i
  · exact .inr (by rw [allocDesc, hf]; rfl)
  refine .inl ⟨i, ?_, List.find?_some hf⟩
  have hmark : update d.free i false = fun j => d.free j && decide (j ∉ [i]) := by
    funext j
    by_cases hj : j = i
    · simp [hj]
    · simp [hj]
  rw [allocDesc, hf, Option.map_some, hmark]
  rfl

theorem freeDesc_eq (h : d.free i = false) : freeDesc d i = .ok (d.clear [i]) := by
  have hdesc : update d.desc i Desc.zero = fun j => if j ∈ [i] then Desc.zero else d.desc j := by
    funext j
    by_cases hj : j = i <;> simp [hj]
  have hfree : update d.free i true = fun j => d.free j || decide (j ∈ [i]) := by
    funext j
    by_cases hj : j = i <;> simp [hj]
  rw [freeDesc, dif_pos i.isLt]
  simp only [Fin.eta, h, Bool.false_eq_true, if_false, hdesc, hfree]
  rfl

theorem foldlM_freeDesc (hn : l.Nodup) (h : ∀ i ∈ l, d.free i = false) : l.foldlM (fun d (j : Fin NUM) => freeDesc d j) d = .ok (d.clear l) := by
  induction l generalizing d with
  | nil => exact congrArg Except.ok clear_nil.symm
  | cons i l ih =>
    rw [List.nodup_cons] at hn
    rw [List.foldlM_cons, freeDesc_eq (h i List.mem_cons_self)]
    refine (ih hn.2 fun j hj => ?_).trans (congrArg Except.ok clear_clear)
    have hne : j ≠ i := by
      rintro rfl
      exact hn.1 hj
    simp [Disk.clear, h j (List.mem_cons_of_mem _ hj), hne]

theorem alloc3Loop_cases {n : ℕ} (hn : l.Nodup) (h : ∀ i ∈ l, d.free i = false) : ∃ new, new.Nodup ∧ (∀ i ∈ new, d.free i = true) ∧
      (alloc3Loop n l d = .ok (some (l ++ new), d.mark new) ∧ new.length = n ∨ alloc3Loop n l d = .ok (none, (d.mark new).clear (l ++ new))) := by
  induction n generalizing l d with
  | zero =>
    refine ⟨[], List.nodup_nil, fun _ hi => (nomatch hi), .inl ⟨?_, rfl⟩⟩
    rw [alloc3Loop, List.append_nil, mark_nil]
  | succ n ih =>
    rcases allocDesc_cases (d := d) with ⟨i, hi, hfree⟩ | hnone
    · have hmem : i ∉ l := by
        intro hil
        rw [h i hil] at hfree
        cases hfree
      obtain ⟨new, hnew, hall, hcases⟩ := ih (l := l ++ [i]) (d := d.mark [i]) (List.nodup_append.mpr ⟨hn, List.nodup_singleton i, by
          rintro a ha b hb rfl
          exact hmem (List.mem_singleton.mp hb ▸ ha)⟩)
        (by
          intro j hj
          rcases List.mem_append.mp hj with hj | hj
          · simp [Disk.mark, h j hj]
          · simp [Disk.mark, List.mem_singleton.mp hj])
      have hnot : i ∉ new := fun hin => by simpa [Disk.mark] using hall i hin
      refine ⟨i :: new, List.nodup_cons.mpr ⟨hnot, hnew⟩, fun j hj => ?_, ?_⟩
      · rcases List.mem_cons.mp hj with rfl | hj
        · exact hfree
        · have := hall j hj
          simp only [Disk.mark, Bool.and_eq_true] at this
          exact this.1
      · rw [alloc3Loop, hi]
        rw [mark_mark, List.append_assoc] at hcases
        exact hcases.imp (fun hc => ⟨hc.1, congrArg (· + 1) hc.2⟩) id
    · refine ⟨[], List.nodup_nil, fun _ hi => (nomatch hi), .inr ?_⟩
      rw [alloc3Loop, hnone, List.append_nil, mark_nil, foldlM_freeDesc hn h]
      rfl

theorem alloc3Desc_cases : ∃ new, new.Nodup ∧ (∀ i ∈ new, d.free i = true) ∧ (alloc3Desc d = .ok (some new, d.mark new) ∧ new.length = 3 ∨
        alloc3Desc d = .ok (none, (d.mark new).clear new)) := by
  obtain ⟨new, hnew, hall, hcases⟩ := alloc3Loop_cases (d := d) (n := 3) List.nodup_nil fun _ hi => (nomatch hi)
  exact ⟨new, hnew, hall, hcases⟩

/-! ### Chains -/

structure Linked (d : Disk B) (r : Req B) : Prop where
  first : (d.desc (r.idx 0)).flags &&& VRING_DESC_F_NEXT ≠ 0 ∧ (d.desc (r.idx 0)).next = r.idx 1
  second : (d.desc (r.idx 1)).flags &&& VRING_DESC_F_NEXT ≠ 0 ∧ (d.desc (r.idx 1)).next = r.idx 2
  third : (d.desc (r.idx 2)).flags &&& VRING_DESC_F_NEXT = 0 ∧
    (d.desc (r.idx 2)).addr = .status (r.idx 0)

structure Formatted (d : Disk B) (r : Req B) : Prop extends Linked d r where
  buf : (d.info r.head).b = some r.b
  req : (d.info r.head).req = some r

theorem Formatted.congr (h : Formatted d r) (hdesc : ∀ k, d'.desc (r.idx k) = d.desc (r.idx k)) (hbuf : (d'.info r.head).b = (d.info r.head).b)
    (hreq : (d'.info r.head).req = (d.info r.head).req) : Formatted d' r := by
  refine ⟨⟨?_, ?_, ?_⟩, ?_, ?_⟩
  · rw [hdesc]
    exact h.first
  · rw [hdesc]
    exact h.second
  · rw [hdesc]
    exact h.third
  · rw [hbuf]
    exact h.buf
  · rw [hreq]
    exact h.req

theorem formatted_format (h : Injective r.idx) : Formatted (format d r write) r := by
  have h01 : r.idx 0 ≠ r.idx 1 := fun heq => absurd (h heq) (by decide)
  have h02 : r.idx 0 ≠ r.idx 2 := fun heq => absurd (h heq) (by decide)
  have h12 : r.idx 1 ≠ r.idx 2 := fun heq => absurd (h heq) (by decide)
  refine ⟨⟨?_, ?_, ?_⟩, ?_, ?_⟩
  · simp [format, update_of_ne h01, update_of_ne h02, VRING_DESC_F_NEXT]
  · simp only [format, update_of_ne h12, update_self, and_true]
    cases write <;> decide
  · simp [format, VRING_DESC_F_NEXT, VRING_DESC_F_WRITE]
  all_goals simp [format, Req.head]

theorem format_desc_of_ne (h : ∀ k, i ≠ r.idx k) : (format d r write).desc i = d.desc i := by
  simp only [format]
  rw [update_of_ne (h 2), update_of_ne (h 1), update_of_ne (h 0)]

theorem format_info_of_ne (write : Bool) (h : i ≠ r.head) : (format d r write).info i = d.info i :=
  update_of_ne h _ _

theorem freeChainLoop_eq {n : ℕ} (h : d.free i = false) : freeChainLoop (n + 1) d i = if (d.desc i).flags &&& VRING_DESC_F_NEXT ≠ 0 then
      freeChainLoop n (d.clear [i]) (d.desc i).next else .ok (d.clear [i]) := by
  rw [freeChainLoop, dif_pos i.isLt]
  simp only [Fin.eta]
  rw [freeDesc_eq h]
  rfl

theorem Linked.freeChain (h : Linked d r) (hinj : Injective r.idx) (hfree : ∀ k, d.free (r.idx k) = false) :
    Virtio.freeChain d r.head = .ok (d.clear [r.idx 0, r.idx 1, r.idx 2]) := by
  have h10 : r.idx 1 ≠ r.idx 0 := fun heq => absurd (hinj heq) (by decide)
  have h20 : r.idx 2 ≠ r.idx 0 := fun heq => absurd (hinj heq) (by decide)
  have h21 : r.idx 2 ≠ r.idx 1 := fun heq => absurd (hinj heq) (by decide)
  have hdesc1 : (d.clear [r.idx 0]).desc (r.idx 1) = d.desc (r.idx 1) := by simp [Disk.clear, h10]
  have hdesc2 : (d.clear [r.idx 0, r.idx 1]).desc (r.idx 2) = d.desc (r.idx 2) := by
    simp [Disk.clear, h20, h21]
  change freeChainLoop (5 + 1 + 1 + 1) d (r.idx 0) = _
  rw [freeChainLoop_eq (hfree 0), if_pos h.first.1, h.first.2,
    freeChainLoop_eq (by simp [Disk.clear, h10, hfree 1]), hdesc1, if_pos h.second.1, h.second.2,
    clear_clear, List.singleton_append, freeChainLoop_eq (by simp [Disk.clear, h20, h21, hfree 2]),
    hdesc2, if_neg (by rw [h.third.1]; exact fun hne => hne rfl), clear_clear]
  rfl

theorem Linked.writeStatus (h : Linked d r) : Virtio.writeStatus d r.head =
      { d with info := update d.info r.head { d.info r.head with status := 0 } } := by
  have h1 : d.descAt (d.desc r.head).next = some (d.desc (r.idx 1)) := by
    rw [Req.head, h.first.2, Disk.descAt, dif_pos (r.idx 1).isLt]
  have h2 : d.descAt (d.desc (r.idx 1)).next = some (d.desc (r.idx 2)) := by
    rw [h.second.2, Disk.descAt, dif_pos (r.idx 2).isLt]
  rw [Virtio.writeStatus, h1, Option.bind_some, h2]
  have h3 := h.third.2
  rcases hd : d.desc (r.idx 2) with ⟨addr, flags, next⟩
  rw [hd] at h3
  obtain rfl : addr = .status (r.idx 0) := h3
  rfl

/-! ### Requests of processes -/

def Pc.req : Pc B → Option (Req B)
  | .publish r | .wait r => some r
  | _ => none

def Pc.buf : Pc B → Option B
  | .alloc b _ => some b
  | .publish r | .wait r => some r.b
  | .idle => none

def chain (pc : P → Pc B) (q : P × Fin 3) : Option (Fin NUM) := (pc q.1).req.map fun r => r.idx q.2

section Owned

variable {pc : P → Pc B} {used : Fin NUM → Prop} {p q : P}

theorem chain_of_req {k : Fin 3} (h : (pc p).req = some r) : chain pc (p, k) = some (r.idx k) := by
  rw [chain, h]
  rfl

section

variable (h : Exclusive (chain pc) used)

include h

theorem injective_of_owned (hp : (pc p).req = some r) : Injective r.idx := by
  intro k k' heq
  have hk' : chain pc (p, k') = some (r.idx k) := heq ▸ chain_of_req hp
  exact (Prod.mk.inj (h.inj (chain_of_req hp) hk')).2

theorem disjoint_of_owned (hp : (pc p).req = some r)
    (hq : (pc q).req = some r') {k k' : Fin 3} (heq : r.idx k = r'.idx k') : p = q := by
  have hk' : chain pc (q, k') = some (r.idx k) := heq ▸ chain_of_req hq
  exact (Prod.mk.inj (h.inj (chain_of_req hp) hk')).1

theorem length_le_of_owned {rs : List (Req B)} (hn : rs.Nodup)
    (hrs : ∀ r ∈ rs, ∃ p, (pc p).req = some r) : rs.length ≤ NUM := by
  have hinj : (rs.map Req.head).Nodup := by
    refine hn.map_on fun r hr r' hr' heq => ?_
    obtain ⟨p, hp⟩ := hrs r hr
    obtain ⟨q, hq⟩ := hrs r' hr'
    obtain rfl := disjoint_of_owned h hp hq heq
    exact Option.some.inj (hp.symm.trans hq)
  have hcard := hinj.length_le_card
  rwa [List.length_map, Fintype.card_fin] at hcard

end

end Owned

end Xv6.Virtio
