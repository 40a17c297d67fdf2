import Mathlib.Data.List.Nodup
import Mathlib.Logic.Function.Iterate

/-!
# Doubly linked rings

Nodes on a ring through two pointers, with a head that holds nothing. A node is an `Option α`, and `none` is the head.
`Xv6.Lib.Path f a l b` says that the pointers `f` lead from `a` through the nodes of `l` to `b`. A `Xv6.Lib.Ring` of the
list `l` is a path from the head through `l` and back in one direction, and one through the reverse of `l` in the other;
what holds of one direction holds of the other, for the reversed list.
-/

namespace Xv6.Lib

open Function

open List (append_assoc mem_cons_of_mem mem_cons_self mem_reverse nodup_cons nodup_reverse
  reverse_append reverse_cons)

variable {α : Type*} {f g : Option α → Option α} {a b c : Option α} {l m : List α} {x : α} {n : Option α}

/-! ### Paths -/

/-- The pointers `f` lead from `a` through `l` to `b`. -/
def Path (f : Option α → Option α) : Option α → List α → Option α → Prop
  | a, [], b => f a = b
  | a, x :: l, b => f a = some x ∧ Path f (some x) l b

/-- The first node of a path behind its start. -/
def firstOf : List α → Option α → Option α
  | [], b => b
  | x :: _, _ => some x

/-- The last node of a path before its end. -/
def lastOf : Option α → List α → Option α
  | a, [] => a
  | _, x :: l => lastOf (some x) l

theorem Path.first (h : Path f a l b) : f a = firstOf l b := by
  cases l with
  | nil => exact h
  | cons x l => exact h.1

theorem Path.last (h : Path f a l b) : f (lastOf a l) = b := by
  induction l generalizing a with
  | nil => exact h
  | cons x l ih => exact ih h.2

theorem lastOf_append_cons : lastOf a (l ++ x :: m) = lastOf (some x) m := by
  induction l generalizing a with
  | nil => rfl
  | cons y l ih => exact ih

theorem lastOf_reverse : lastOf a l.reverse = firstOf l a := by
  cases l with
  | nil => rfl
  | cons x l => rw [reverse_cons, lastOf_append_cons, firstOf, lastOf]

theorem path_append : Path f a (l ++ x :: m) b ↔ Path f a l (some x) ∧ Path f (some x) m b := by
  induction l generalizing a with
  | nil => exact Iff.rfl
  | cons y l ih => rw [List.cons_append, Path, ih, Path, and_assoc]

theorem Path.congr (h : Path f a l b) (ha : g a = f a) (hl : ∀ x ∈ l, g (some x) = f (some x)) : Path g a l b := by
  induction l generalizing a with
  | nil => exact ha.trans h
  | cons x l ih =>
    exact ⟨ha.trans h.1, ih h.2 (hl x mem_cons_self) fun y hy => hl y (mem_cons_of_mem _ hy)⟩

theorem Path.restart (h : Path f a l b) (hc : f c = f a) : Path f c l b := by
  cases l with
  | nil => exact hc.trans h
  | cons x l => exact ⟨hc.trans h.1, h.2⟩

theorem Path.iterate (h : Path f a l b) {k : ℕ} (hk : k < l.length) : f^[k + 1] a = some l[k] := by
  induction l generalizing a k with
  | nil => exact absurd hk (Nat.not_lt_zero k)
  | cons x l ih =>
    cases k with
    | zero => exact h.1
    | succ k =>
      rw [iterate_succ_apply, h.1]
      exact ih h.2 (Nat.lt_of_succ_lt_succ hk)

theorem Path.iterate_length (h : Path f a l b) : f^[l.length + 1] a = b := by
  induction l generalizing a with
  | nil => exact h
  | cons x l ih =>
    rw [List.length_cons, iterate_succ_apply, h.1]
    exact ih h.2

/-- A list that the last node of a path does not come twice in. -/
def Fresh (a : Option α) (l : List α) : Prop := l.Nodup ∧ ∀ x ∈ l, a ≠ some x

theorem Fresh.tail (h : Fresh a (x :: l)) : Fresh (some x) l := by
  obtain ⟨hx, hl⟩ := List.nodup_cons.mp h.1
  refine ⟨hl, ?_⟩
  rintro y hy ⟨⟩
  exact hx hy

theorem fresh_none (h : l.Nodup) : Fresh none l := ⟨h, fun x _ hx => by cases hx⟩

theorem lastOf_eq_or_mem : lastOf a l = a ∨ ∃ x ∈ l, lastOf a l = some x := by
  induction l generalizing a with
  | nil => exact Or.inl rfl
  | cons x l ih =>
    right
    rcases ih (a := some x) with h | ⟨y, hy, h⟩
    · exact ⟨x, mem_cons_self, h⟩
    · exact ⟨y, mem_cons_of_mem _ hy, h⟩

theorem lastOf_ne (h : Fresh a l) (hl : l ≠ []) : lastOf a l ≠ a := by
  cases l with
  | nil => exact absurd rfl hl
  | cons x l =>
    rcases lastOf_eq_or_mem (a := some x) (l := l) with hx | ⟨y, hy, hxy⟩
    · rw [lastOf, hx]
      exact (h.2 x mem_cons_self).symm
    · rw [lastOf, hxy]
      exact (h.2 y (mem_cons_of_mem _ hy)).symm

variable [DecidableEq α]

theorem Path.redirect (h : Path f a l b) (hl : Fresh a l) : Path (update f (lastOf a l) c) a l c := by
  induction l generalizing a with
  | nil => exact update_self ..
  | cons x l ih =>
    refine ⟨?_, ih h.2 hl.tail⟩
    rw [update_of_ne (lastOf_ne hl (List.cons_ne_nil x l)).symm]
    exact h.1

/-- A path that goes past one of its nodes. -/
theorem Path.unlink (h : Path f a (l ++ x :: m) b) (hnd : Fresh a (l ++ x :: m)) : Path (update f (lastOf a l) (firstOf m b)) a (l ++ m) b := by
  obtain ⟨hl, hm⟩ := path_append.mp h
  have hfl : Fresh a l :=
    ⟨hnd.1.of_append_left, fun y hy => hnd.2 y (List.mem_append_left _ hy)⟩
  have hred := hl.redirect (c := firstOf m b) hfl
  cases m with
  | nil => rwa [List.append_nil]
  | cons z m =>
    refine path_append.mpr ⟨hred, ?_⟩
    -- what comes behind is on neither side of the gap
    have hdisj : ∀ y ∈ z :: m, some y ≠ lastOf a l := by
      intro y hy heq
      have hym : y ∈ l ++ x :: z :: m :=
        List.mem_append_right _ (mem_cons_of_mem _ hy)
      rcases lastOf_eq_or_mem (a := a) (l := l) with ha | ⟨w, hw, hlast⟩
      · exact hnd.2 y hym (ha.symm.trans heq.symm)
      · obtain rfl : y = w := Option.some.inj (heq.trans hlast)
        exact (List.disjoint_of_nodup_append hnd.1) hw (mem_cons_of_mem _ hy)
    exact hm.2.congr (update_of_ne (hdisj z mem_cons_self) ..) fun y hy => update_of_ne (hdisj y (mem_cons_of_mem _ hy)) ..

/-! ### Rings -/

/-- The pointers of the nodes. -/
structure Links (α : Type*) where
  prev : Option α → Option α
  next : Option α → Option α

/-- **The nodes of `l` form a ring with the head.** -/
structure Ring (r : Links α) (l : List α) : Prop where
  next : Path r.next none l none
  prev : Path r.prev none l.reverse none
  nodup : l.Nodup

namespace Links

variable (r : Links α)

/-- Only the head. -/
def single (α : Type*) : Links α := ⟨fun _ => none, fun _ => none⟩

/-- `b->next->prev = b->prev; b->prev->next = b->next`. -/
def unlink (x : α) : Links α :=
  let r : Links α := { r with prev := update r.prev (r.next (some x)) (r.prev (some x)) }
  { r with next := update r.next (r.prev (some x)) (r.next (some x)) }

/-- `b->next = head.next; b->prev = &head; head.next->prev = b; head.next = b`. -/
def insert (x : α) : Links α :=
  let r : Links α := { r with next := update r.next (some x) (r.next none) }
  let r : Links α := { r with prev := update r.prev (some x) none }
  let r : Links α := { r with prev := update r.prev (r.next none) (some x) }
  { r with next := update r.next none (some x) }

omit [DecidableEq α] in
/-- `for(b = n; b != &head; b = f(b)) if(p(b)) break`, over at most `fuel` nodes. -/
def search (f : Option α → Option α) (p : α → Bool) : ℕ → Option α → Option α
  | 0, _ => none
  | _ + 1, none => none
  | fuel + 1, some x => if p x then some x else search f p fuel (f (some x))

end Links

omit [DecidableEq α] in
theorem Path.search {p : α → Bool} {fuel : ℕ} (h : Path f a l none) (hfuel : l.length < fuel) : Links.search f p fuel (f a) = l.find? p := by
  induction l generalizing a fuel with
  | nil =>
    obtain ⟨fuel, rfl⟩ : ∃ k, fuel = k + 1 := ⟨fuel - 1, by simp at hfuel; omega⟩
    rw [show f a = none from h]
    rfl
  | cons x l ih =>
    obtain ⟨fuel, rfl⟩ : ∃ k, fuel = k + 1 := ⟨fuel - 1, by simp at hfuel; omega⟩
    rw [h.1, Links.search, List.find?_cons, ih h.2 (Nat.lt_of_succ_lt_succ hfuel)]
    cases p x <;> rfl

namespace Ring

variable {r : Links α}

omit [DecidableEq α]

theorem single : Ring (Links.single α) [] := ⟨rfl, rfl, List.nodup_nil⟩

variable (h : Ring r l)

include h

theorem reverse : Ring ⟨r.next, r.prev⟩ l.reverse :=
  ⟨h.prev, by rw [List.reverse_reverse]; exact h.next, List.nodup_reverse.mpr h.nodup⟩

theorem prev_next (hn : ∀ x, n = some x → x ∈ l) : r.prev (r.next n) = n := by
  cases n with
  | none => rw [h.next.first, ← lastOf_reverse, h.prev.last]
  | some x =>
    obtain ⟨l₁, l₂, rfl⟩ := List.append_of_mem (hn x rfl)
    have hprev := h.prev
    rw [reverse_append, reverse_cons, append_assoc] at hprev
    rw [(path_append.mp h.next).2.first, ← lastOf_reverse, (path_append.mp hprev).1.last]

theorem next_prev (hn : ∀ x, n = some x → x ∈ l) : r.next (r.prev n) = n :=
  h.reverse.prev_next fun x hx => List.mem_reverse.mpr (hn x hx)

end Ring

namespace Ring

variable {r : Links α}

/-- **Taking a node out.** -/
theorem unlink (h : Ring r (l ++ x :: m)) : Ring (r.unlink x) (l ++ m) := by
  have hprev : Path r.prev none (m.reverse ++ x :: l.reverse) none := by
    have := h.prev
    rwa [reverse_append, reverse_cons, append_assoc] at this
  have hnd : (m.reverse ++ x :: l.reverse).Nodup := by
    have := List.nodup_reverse.mpr h.nodup
    rwa [reverse_append, reverse_cons, append_assoc] at this
  -- the neighbours of the node
  have hbefore : r.prev (some x) = lastOf none l := by
    rw [(path_append.mp hprev).2.first, ← lastOf_reverse, List.reverse_reverse]
  have hbehind : r.next (some x) = lastOf none m.reverse := by
    rw [(path_append.mp h.next).2.first, lastOf_reverse]
  have hne : some x ≠ r.next (some x) := by
    intro heq
    rw [hbehind] at heq
    rcases lastOf_eq_or_mem (a := none) (l := m.reverse) with hnone | ⟨y, hy, hlast⟩
    · cases heq.trans hnone
    · obtain rfl := Option.some.inj (heq.trans hlast)
      exact (List.disjoint_of_nodup_append hnd) hy mem_cons_self
  refine ⟨?_, ?_, ?_⟩
  · simp only [Links.unlink, update_of_ne hne]
    rw [hbefore, (path_append.mp h.next).2.first]
    exact h.next.unlink (fresh_none h.nodup)
  · simp only [Links.unlink]
    rw [hbehind, (path_append.mp hprev).2.first, reverse_append]
    exact hprev.unlink (fresh_none hnd)
  · exact h.nodup.sublist (List.Sublist.append_left (List.sublist_cons_self x m) l)

/-- **Putting a node in behind the head.** -/
theorem insert (h : Ring r l) (hx : x ∉ l) : Ring (r.insert x) (x :: l) := by
  have hfirst : r.next none = lastOf none l.reverse := by
    rw [lastOf_reverse]
    exact h.next.first
  have hne : some x ≠ r.next none := by
    intro heq
    rw [hfirst] at heq
    rcases lastOf_eq_or_mem (a := none) (l := l.reverse) with hnone | ⟨y, hy, hlast⟩
    · cases heq.trans hnone
    · obtain rfl := Option.some.inj (heq.trans hlast)
      exact hx (List.mem_reverse.mp hy)
  have hmem : ∀ y ∈ l, some y ≠ some x := by
    rintro y hy ⟨⟩
    exact hx hy
  refine ⟨⟨?_, ?_⟩, ?_, List.nodup_cons.mpr ⟨hx, h.nodup⟩⟩
  · simp [Links.insert]
  · -- the new node has the pointer the head had
    have hold : Path (update r.next (some x) (r.next none)) none l none :=
      h.next.congr (update_of_ne (by simp) ..) fun y hy => update_of_ne (hmem y hy) ..
    refine (hold.restart (c := some x) (by simp)).congr (by simp [Links.insert]) fun y hy => ?_
    simp [Links.insert]
  · rw [reverse_cons]
    have hold : Path (update r.prev (some x) none) none l.reverse none :=
      h.prev.congr (update_of_ne (by simp) ..) fun y hy => update_of_ne (hmem y (List.mem_reverse.mp hy)) ..
    have hred := hold.redirect (c := some x) (fresh_none (List.nodup_reverse.mpr h.nodup))
    rw [← hfirst] at hred
    refine path_append.mpr ⟨?_, ?_⟩
    · simpa [Links.insert] using hred
    · simp [Links.insert, Path, update_of_ne hne]

theorem foldl_insert (h : Ring r l) (hm : m.Nodup) (hdisj : ∀ x ∈ m, x ∉ l) : Ring (m.foldl Links.insert r) (m.reverse ++ l) := by
  induction m generalizing r l with
  | nil => exact h
  | cons x m ih =>
    obtain ⟨hx, hm⟩ := List.nodup_cons.mp hm
    rw [List.foldl_cons, reverse_cons, append_assoc]
    refine ih (h.insert (hdisj x mem_cons_self)) hm fun y hy hyl => ?_
    rcases List.mem_cons.mp hyl with rfl | hyl
    · exact hx hy
    · exact hdisj y (mem_cons_of_mem _ hy) hyl

theorem moveToFront (h : Ring r l) (hx : x ∈ l) : Ring ((r.unlink x).insert x) (x :: l.erase x) := by
  obtain ⟨l₁, l₂, rfl⟩ := List.append_of_mem hx
  have hnot : x ∉ l₁ ++ l₂ := by
    have := List.nodup_middle.mp h.nodup
    exact (List.nodup_cons.mp this).1
  rw [List.erase_append_right _ fun hmem => hnot (List.mem_append_left _ hmem), List.erase_cons_head]
  exact h.unlink.insert hnot

end Ring

end Xv6.Lib
