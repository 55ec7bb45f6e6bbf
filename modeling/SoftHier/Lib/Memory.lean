import Mathlib.Data.List.Basic
import Mathlib.Logic.Function.Basic

/-!
# Memories

A memory is a function from addresses to contents, over any type of addresses.  An access is a list
of addresses, in the order in which they are read or written, so that an access in several pieces
is the access to the appended lists, and a memory behind a map of addresses is accessed through the
mapped list.

* `loads`, `stores`: reading and writing a list of addresses.
* `stores_append`: an access in two pieces.
* `loads_comp`, `stores_comp`: an access through an injective map of addresses.
* `stores_of_notMem`, `loads_stores`: what a write leaves alone, and what it writes.
* `writes`: a sequence of writes; `loads_writes`: what it leaves, where no write sees another one.
-/

namespace SoftHier

variable {α β γ : Type*}

/-- The contents of a list of addresses. -/
def loads (m : α → β) (as : List α) : List β := as.map m

/-- The memory after a list of contents has been written to a list of addresses, first to last. -/
def stores [DecidableEq α] (m : α → β) : List α → List β → α → β
  | a :: as, x :: xs => stores (Function.update m a x) as xs
  | _, _ => m

section

variable {m : α → β} {as bs : List α} {xs ys : List β} {a : α}

@[simp] theorem loads_nil : loads m [] = [] := rfl

@[simp] theorem length_loads : (loads m as).length = as.length := List.length_map _

theorem loads_append : loads m (as ++ bs) = loads m as ++ loads m bs := List.map_append

/-- Reading through a map of addresses. -/
theorem loads_comp (m : γ → β) (f : α → γ) (as : List α) :
    loads (m ∘ f) as = loads m (as.map f) := by
  unfold loads
  rw [List.map_map]

variable [DecidableEq α]

@[simp] theorem stores_nil : stores m [] xs = m := by
  cases xs <;> rfl

/-- A write in two pieces. -/
theorem stores_append (len : as.length = xs.length) :
    stores m (as ++ bs) (xs ++ ys) = stores (stores m as xs) bs ys := by
  induction as generalizing m xs with
  | nil =>
    obtain rfl : xs = [] := List.length_eq_zero_iff.mp len.symm
    rfl
  | cons a as ih =>
    cases xs with
    | nil => cases len
    | cons x xs => exact ih (Nat.succ.inj len)

/-- A write leaves the other addresses alone. -/
theorem stores_of_notMem (other : a ∉ as) : stores m as xs a = m a := by
  induction as generalizing m xs with
  | nil => rw [stores_nil]
  | cons b as ih =>
    cases xs with
    | nil => rfl
    | cons x xs =>
      have apart : a ≠ b := fun same => other (same ▸ List.mem_cons_self)
      have rest : a ∉ as := fun mem => other (List.mem_cons_of_mem _ mem)
      exact (ih rest).trans (Function.update_of_ne apart _ _)

/-- What a write to distinct addresses leaves at one of them. -/
theorem stores_at (nodup : as.Nodup) (len : as.length = xs.length) {i : Nat} (hi : i < as.length) :
    stores m as xs as[i] = xs[i] := by
  induction as generalizing m xs i with
  | nil => cases hi
  | cons b as ih =>
    cases xs with
    | nil => cases len
    | cons x xs =>
      have apart := (List.nodup_cons.mp nodup).1
      have rest := (List.nodup_cons.mp nodup).2
      cases i with
      | zero => exact (stores_of_notMem apart).trans (Function.update_self _ _ _)
      | succ i => exact ih rest (Nat.succ.inj len) (Nat.lt_of_succ_lt_succ hi)

/-- What a write leaves at an address it writes does not depend on the memory before. -/
theorem stores_congr {m' : α → β} (here : a ∈ as) (len : as.length = xs.length) :
    stores m as xs a = stores m' as xs a := by
  induction as generalizing m m' xs with
  | nil => cases here
  | cons b as ih =>
    cases xs with
    | nil => cases len
    | cons x xs =>
      rcases Classical.em (a ∈ as) with later | last
      · exact ih later (Nat.succ.inj len)
      · obtain rfl : a = b := (List.mem_cons.mp here).resolve_right last
        unfold stores
        rw [stores_of_notMem last, stores_of_notMem last, Function.update_self,
          Function.update_self]

theorem loads_stores (nodup : as.Nodup) (len : as.length = xs.length) :
    loads (stores m as xs) as = xs := by
  apply List.ext_getElem (length_loads.trans len)
  intro i hi hi'
  rw [length_loads] at hi
  have at' := stores_at (m := m) nodup len hi
  rw [← at']
  exact List.getElem_map _

/-- Writing through an injective map of addresses. -/
theorem stores_comp [DecidableEq γ] {f : α → γ} (inj : Function.Injective f) (m : γ → β)
    (as : List α) (xs : List β) : stores m (as.map f) xs ∘ f = stores (m ∘ f) as xs := by
  induction as generalizing m xs with
  | nil => rw [List.map_nil, stores_nil, stores_nil]
  | cons a as ih =>
    cases xs with
    | nil => rfl
    | cons x xs =>
      have first : Function.update m (f a) x ∘ f = Function.update (m ∘ f) a x :=
        Function.update_comp_eq_of_injective m inj a x
      exact (ih (Function.update m (f a) x) xs).trans (by rw [first]; rfl)

end

/-! ## Sequences of writes -/

section

variable [DecidableEq α] {τ : Type*}

/-- A sequence of writes, each of data computed from the memory it finds. -/
def writes (addr : τ → List α) (data : τ → (α → β) → List β) (ts : List τ) (m : α → β) : α → β :=
  ts.foldl (fun m t => stores m (addr t) (data t m)) m

variable (addr : τ → List α) (data : τ → (α → β) → List β) {ts : List τ} {m m' : α → β} {t : τ}
  {a : α}

theorem writes_cons (ts : List τ) (m : α → β) :
    writes addr data (t :: ts) m = writes addr data ts (stores m (addr t) (data t m)) := rfl

/-- The writes leave the other addresses alone. -/
theorem writes_of_notMem (other : ∀ t ∈ ts, a ∉ addr t) : writes addr data ts m a = m a := by
  induction ts generalizing m with
  | nil => rfl
  | cons t ts ih =>
    rw [writes_cons, ih fun s mem => other s (List.mem_cons_of_mem _ mem)]
    exact stores_of_notMem (other t List.mem_cons_self)

/-- Writes to disjoint places whose data do not depend on any of them: each place holds its data in
the end.  `W` holds of the addresses written. -/
theorem loads_writes (m m' : α → β) (W : α → Prop)
    (apart : ts.Pairwise fun s t => (addr s).Disjoint (addr t)) (nodup : ∀ t ∈ ts, (addr t).Nodup)
    (len : ∀ t ∈ ts, (addr t).length = (data t m).length) (written : ∀ t ∈ ts, ∀ a ∈ addr t, W a)
    (agree : ∀ a, ¬ W a → m' a = m a)
    (indep : ∀ t ∈ ts, ∀ m', (∀ a, ¬ W a → m' a = m a) → data t m' = data t m) (mem : t ∈ ts) :
    loads (writes addr data ts m') (addr t) = data t m := by
  induction ts generalizing m' with
  | nil => cases mem
  | cons s ts ih =>
    have tail : ∀ t ∈ ts, t ∈ s :: ts := fun t mem => List.mem_cons_of_mem _ mem
    have head : s ∈ s :: ts := List.mem_cons_self
    rw [List.pairwise_cons] at apart
    rw [writes_cons]
    rcases List.mem_cons.mp mem with rfl | later
    · have kept : loads (writes addr data ts (stores m' (addr t) (data t m'))) (addr t) =
          loads (stores m' (addr t) (data t m')) (addr t) := by
        apply List.map_congr_left
        intro a here
        exact writes_of_notMem addr data fun s mem => fun there => apart.1 s mem here there
      have data' := indep t head m' agree
      rw [kept, loads_stores (nodup t head) (by rw [data']; exact len t head), data']
    · apply ih _ apart.2 (fun t mem => nodup t (tail t mem)) (fun t mem => len t (tail t mem))
        (fun t mem => written t (tail t mem)) _ (fun t mem => indep t (tail t mem)) later
      intro a notW
      rw [stores_of_notMem fun here => notW (written s head a here), agree a notW]

end

/-! ## Contiguous addresses -/

section

variable {m m' : Nat → β} {a b n : Nat}

/-- Two contiguous accesses read the same if they do so byte by byte. -/
theorem loads_range'_eq_iff : loads m (List.range' a n) = loads m' (List.range' b n) ↔
    ∀ i < n, m (a + i) = m' (b + i) := by
  unfold loads
  rw [List.range'_eq_map_range, List.range'_eq_map_range, List.map_map, List.map_map,
    List.map_inj_left]
  constructor
  · exact fun same i less => same i (List.mem_range.mpr less)
  · exact fun same i mem => same i (List.mem_range.mp mem)

end

end SoftHier
