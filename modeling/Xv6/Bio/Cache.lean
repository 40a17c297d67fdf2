import Mathlib.Data.Fintype.Card
import Xv6.Lib.Ring
import Xv6.Lib.Run
import Xv6.Log.Buffer

/-!
# The buffer cache with its pointers

`bio.c` as it is written: the buffers are on a doubly linked ring through `prev` and `next`, the two loops of `bget` follow
these pointers, and `brelse` moves a buffer to the front by six assignments. `refcnt` is a `uint`. `Xv6.Bio.Cache.Shows`
relates such a cache to the one of `Xv6.Logging`, where the ring is a list.
-/

namespace Xv6.Bio

open Lib Function

open Logging (Buf BufId Pid Block)

structure Cache where
  buf : BufId → Buf
  /-- The `prev` and `next` of the buffers, and of `head`, which is `none`. -/
  links : Links BufId

/-- `binit`. The buffers are zero; every one of them is put in behind `head`. -/
def binit : Cache where
  buf := Logging.binit.buf
  links := (List.finRange NBUF).foldl Links.insert (Links.single BufId)

namespace Cache

def set (c : Cache) (i : BufId) (q : Buf) : Cache := { c with buf := update c.buf i q }

def ref (c : Cache) (i : BufId) : Cache :=
  c.set i { c.buf i with refcnt := ((c.buf i).refcnt + 1) % UINT }

/-- `b->refcnt--`. -/
def unref (c : Cache) (i : BufId) : Cache :=
  c.set i { c.buf i with refcnt := ((c.buf i).refcnt + (UINT - 1)) % UINT }

def recycle (c : Cache) (i : BufId) (dev b : ℕ) : Cache :=
  c.set i { c.buf i with dev := dev, blockno := b, valid := false, refcnt := 1 }

/-- `bget` up to the lock of the buffer; `none` is the panic `bget: no buffers`. -/
def bget (c : Cache) (dev b : ℕ) : Option (BufId × Cache) :=
  match Links.search c.links.next (fun i => (c.buf i).Caches dev b) (NBUF + 1)
      (c.links.next none) with
  | some i => some (i, c.ref i)
  | none =>
    match Links.search c.links.prev (fun i => (c.buf i).refcnt = 0) (NBUF + 1)
        (c.links.prev none) with
    | some i => some (i, c.recycle i dev b)
    | none => none

/-- The part of `brelse` that holds `bcache.lock`. -/
def drop (c : Cache) (i : BufId) : Cache :=
  let c := c.unref i
  if (c.buf i).refcnt = 0 then { c with links := (c.links.unlink i).insert i } else c

def bpin (c : Cache) (i : BufId) : Cache := c.ref i

def bunpin (c : Cache) (i : BufId) : Cache := c.unref i

/-! ### The order of the buffers -/

structure Order (c : Cache) (order : List BufId) : Prop where
  ring : Ring c.links order
  all : ∀ i, i ∈ order

variable {c c' : Cache} {order : List BufId} {i j : BufId} {q : Buf} {dev b : ℕ}

theorem order_binit : Order binit (List.finRange NBUF).reverse where
  ring := by
    have h := (Ring.single (α := BufId)).foldl_insert (List.nodup_finRange NBUF) (fun x _ hx => absurd hx List.not_mem_nil)
    rwa [List.append_nil] at h
  all i := List.mem_reverse.mpr (List.mem_finRange i)

theorem Order.length (h : Order c order) : order.length = NBUF := by
  have huniv : order.toFinset = Finset.univ :=
    Finset.eq_univ_iff_forall.mpr fun i => List.mem_toFinset.mpr (h.all i)
  rw [← List.toFinset_card_of_nodup h.ring.nodup, huniv, Finset.card_univ, Fintype.card_fin]

theorem Order.set (h : Order c order) : Order (c.set i q) order := ⟨h.ring, h.all⟩

@[simp] theorem drop_buf : (c.drop i).buf = (c.unref i).buf := by
  simp only [Cache.drop]
  split_ifs <;> rfl

theorem Order.drop (h : Order c order) : Order (c.drop i) (if ((c.unref i).buf i).refcnt = 0 then i :: order.erase i else order) := by
  by_cases hzero : ((c.unref i).buf i).refcnt = 0
  · simp only [Cache.drop, if_pos hzero]
    refine ⟨h.ring.moveToFront (h.all i), fun j => ?_⟩
    by_cases hji : j = i
    · exact hji ▸ List.mem_cons_self
    · exact List.mem_cons_of_mem _ ((List.mem_erase_of_ne hji).mpr (h.all j))
  · simp only [Cache.drop, if_neg hzero]
    exact h.set

theorem Order.bget (h : Order c order) (dev b : ℕ) :
    c.bget dev b =
      match order.find? fun i => (c.buf i).Caches dev b with
      | some i => some (i, c.ref i)
      | none =>
        (order.reverse.find? fun i => (c.buf i).refcnt = 0).map fun i =>
          (i, c.recycle i dev b) := by
  have hlen : order.length < NBUF + 1 := by rw [h.length]; exact Nat.lt_succ_self _
  rw [Cache.bget, h.ring.next.search hlen, h.ring.prev.search (by rw [List.length_reverse]; exact hlen)]
  split
  · rfl
  · split <;> next hfind => rw [hfind]; rfl

/-! ### The same with a list -/

structure Shows (c : Cache) (a : Logging.Cache) : Prop where
  buf : c.buf = a.buf
  order : Order c a.lru

variable {a : Logging.Cache}

theorem shows_binit : Shows binit Logging.binit := ⟨rfl, order_binit⟩

theorem Shows.ref (h : Shows c a) (hi : (a.buf i).refcnt + 1 < UINT) : Shows (c.ref i) (a.set i { a.buf i with refcnt := (a.buf i).refcnt + 1 }) := by
  refine ⟨?_, h.order.set⟩
  simp only [Cache.ref, Cache.set, Logging.Cache.set, h.buf, Nat.mod_eq_of_lt hi]

theorem unref_refcnt {n : ℕ} (hpos : 0 < n) (hn : n < UINT) : (n + (UINT - 1)) % UINT = n - 1 := by
  have hU : 0 < UINT := by decide
  rw [show n + (UINT - 1) = n - 1 + UINT by omega, Nat.add_mod_right]
  exact Nat.mod_eq_of_lt (by omega)

theorem Shows.unref (h : Shows c a) (hpos : 0 < (a.buf i).refcnt) (hi : (a.buf i).refcnt < UINT) : Shows (c.unref i) (a.bunpin i) := by
  refine ⟨?_, h.order.set⟩
  simp only [Cache.unref, Cache.set, Logging.Cache.bunpin, Logging.Cache.set, h.buf, unref_refcnt hpos hi]

theorem Shows.bget (h : Shows c a) (hrefs : ∀ i, (a.buf i).refcnt + 1 < UINT) (dev b : ℕ) : (c.bget dev b = none ∧ a.bget dev b = none) ∨
      ∃ i c' a', c.bget dev b = some (i, c') ∧ a.bget dev b = some (i, a') ∧ Shows c' a' := by
  rw [h.order.bget, Logging.Cache.bget, h.buf]
  cases a.lru.find? fun i => (a.buf i).Caches dev b with
  | some i => exact Or.inr ⟨i, _, _, rfl, rfl, h.ref (hrefs i)⟩
  | none =>
    cases a.lru.reverse.find? fun i => (a.buf i).refcnt = 0 with
    | none => exact Or.inl ⟨rfl, rfl⟩
    | some i =>
      refine Or.inr ⟨i, _, _, rfl, rfl, ?_, h.order.set⟩
      simp only [Cache.recycle, Cache.set, Logging.Cache.set, h.buf]

theorem Shows.brelse (h : Shows c a) (hpos : 0 < (a.buf i).refcnt) (hi : (a.buf i).refcnt < UINT) :
    Shows ((c.set i { c.buf i with holder := none }).drop i) (a.brelse i) := by
  have hcount := unref_refcnt hpos hi
  have hord := (h.order.set (i := i) (q := { c.buf i with holder := none })).drop (i := i)
  constructor
  · rw [drop_buf, Logging.Cache.brelse_buf]
    simp only [Cache.unref, Cache.set, Logging.Cache.set, h.buf, update_self, update_idem, hcount]
  have hlru : (a.brelse i).lru =
      if (a.buf i).refcnt - 1 = 0 then i :: a.lru.erase i else a.lru := by
    simp only [Logging.Cache.brelse]
    split_ifs <;> rfl
  simp only [Cache.unref, Cache.set, h.buf, update_self, hcount] at hord
  rw [hlru]
  simpa only [Cache.set, h.buf] using hord

/-! ### Runs -/

/-- What is done to the cache: the four calls that take `bcache.lock`, `acquiresleep` of a buffer, and the filling of one that is held. -/
inductive Op
  | bget (dev b : ℕ)
  | brelse (i : BufId)
  | bpin (i : BufId)
  | bunpin (i : BufId)
  | acquiresleep (i : BufId) (p : Pid)
  | fill (i : BufId) (data : Block)

def ringStep (c : Cache) : Op → Option Cache
  | .bget dev b => (c.bget dev b).map Prod.snd
  | .brelse i => some ((c.set i { c.buf i with holder := none }).drop i)
  | .bpin i => some (c.bpin i)
  | .bunpin i => some (c.bunpin i)
  | .acquiresleep i p => some (c.set i { c.buf i with holder := some p })
  | .fill i data => some (c.set i { c.buf i with valid := true, data := data })

def listStep (a : Logging.Cache) : Op → Option Logging.Cache
  | .bget dev b => (a.bget dev b).map Prod.snd
  | .brelse i => some (a.brelse i)
  | .bpin i => some (a.bpin i)
  | .bunpin i => some (a.bunpin i)
  | .acquiresleep i p => some (a.set i { a.buf i with holder := some p })
  | .fill i data => some (a.set i { a.buf i with valid := true, data := data })

/-- No count leaves the range of a `uint`. -/
def Counted (a : Logging.Cache) : Op → Prop
  | .bget _ _ => ∀ i, (a.buf i).refcnt + 1 < UINT
  | .bpin i => (a.buf i).refcnt + 1 < UINT
  | .brelse i | .bunpin i => 0 < (a.buf i).refcnt ∧ (a.buf i).refcnt < UINT
  | _ => True

theorem Shows.set (h : Shows c a) : Shows (c.set i q) (a.set i q) := by
  refine ⟨?_, h.order.set⟩
  simp only [Cache.set, Logging.Cache.set, h.buf]

theorem Shows.step {op : Op} (h : Shows c a) (hop : Counted a op) : Option.Rel Shows (c.ringStep op) (listStep a op) := by
  rcases op with ⟨dev, b⟩ | i | i | i | ⟨i, p⟩ | ⟨i, data⟩
  · rcases h.bget hop dev b with ⟨hc, ha⟩ | ⟨i, c', a', hc, ha, h'⟩
    · rw [ringStep, listStep, hc, ha]
      exact .none
    · rw [ringStep, listStep, hc, ha]
      exact .some h'
  · exact .some (h.brelse hop.1 hop.2)
  · exact .some (h.ref hop)
  · exact .some (h.unref hop.1 hop.2)
  all_goals
    rw [ringStep, h.buf]
    exact .some h.set

/-- The buffer that is found does not depend on the counts being in range. -/
theorem Shows.bget_fst (h : Shows c a) (dev b : ℕ) : (c.bget dev b).map Prod.fst = (a.bget dev b).map Prod.fst := by
  rw [h.order.bget, Logging.Cache.bget, h.buf]
  rcases a.lru.find? fun i => (a.buf i).Caches dev b with _ | i
  · rcases a.lru.reverse.find? fun i => (a.buf i).refcnt = 0 with _ | i <;> rfl
  · rfl

/-- **The ring of pointers is a list in the order of use.** Through every run from `binit` in which no count leaves its range, the two loops of
`bget` find the buffers that the list says, and `bget` panics on the ring just if it does on the list. -/
theorem ring_refines_list (ops : List Op) (h : Along listStep Counted Logging.binit ops) :
    Option.Rel (fun c a => Shows c a ∧ ∀ dev b, (c.bget dev b).map Prod.fst = (a.bget dev b).map Prod.fst)
      (run ringStep binit ops) (run listStep Logging.binit ops) := by
  have hrel : Option.Rel Shows (run ringStep binit ops) (run listStep Logging.binit ops) := h.rel Shows.step shows_binit
  generalize run ringStep binit ops = x at hrel ⊢
  generalize run listStep Logging.binit ops = y at hrel ⊢
  cases hrel with
  | none => exact .none
  | some hca => exact .some ⟨hca, hca.bget_fst⟩

/-- One buffer is taken and given back. -/
theorem ring_refines_list_returned : ∃ c a i, run ringStep binit [.bget 1 5, .brelse i] = some c ∧
    run listStep Logging.binit [.bget 1 5, .brelse i] = some a ∧ Shows c a := by
  have hal : Along listStep Counted Logging.binit [.bget 1 5, .brelse 0] := by
    refine ⟨fun i => by change 0 + 1 < UINT; decide, fun a ha => ⟨?_, fun _ _ => trivial⟩⟩
    obtain rfl := Option.some.inj ha
    change 0 < 1 ∧ 1 < UINT
    decide
  have hrel := ring_refines_list _ hal
  generalize hx : run ringStep binit _ = x at hrel
  generalize hy : run listStep Logging.binit _ = y at hrel
  cases hrel with
  | none => cases hy
  | some hca => exact ⟨_, _, 0, hx, hy, hca.1⟩

end Cache

end Xv6.Bio
