import Mathlib.Algebra.Order.Ring.Int
import Mathlib.Data.Multiset.Fold
import SoftHier.Noc.Reduction

/-!
# The tree of requests of a reduction

`TreeInv` describes the requests of a reduction: those of `L` are on their way, those of `W` wait
for as many kids as they have among both, and every one but the root has its parent among `W`.

* `CollType.combine_comm`, `combine_assoc`, `combine_unit`: the operations are commutative and
  associative and have a neutral element.
* `TreeInv.merge`: a request that ends leaves a tree.
* `handleRequestEnd_spec`: the end of a request merges its data once, and either leaves a tree or
  answers the initiator.
* `TreeInv.spawn`: kids join the tree.
-/

namespace SoftHier.Noc

/-! ## The operations -/

/-- The number a maximum compares an element by. -/
def CollType.key : CollType → BitVec 16 → Int
  | .maxInt16, a => a.toInt
  | .addUint16, a | .addInt16, a | .maxUint16, a => a.toNat

/-- The two maxima. -/
def CollType.IsMax (t : CollType) : Prop := t = .maxUint16 ∨ t = .maxInt16

namespace CollType

theorem key_injective (t : CollType) {a b : BitVec 16} (same : t.key a = t.key b) : a = b := by
  cases t with
  | maxInt16 => exact BitVec.eq_of_toInt_eq same
  | addUint16 | addInt16 | maxUint16 => exact BitVec.eq_of_toNat_eq (Int.ofNat_inj.mp same)

theorem key_combine {t : CollType} (isMax : t.IsMax) (a b : BitVec 16) :
    t.key (t.combine a b) = max (t.key a) (t.key b) := by
  rcases isMax with rfl | rfl
  · simp only [combine, key, BitVec.ult, decide_eq_true_eq]
    split <;> omega
  · simp only [combine, key, BitVec.slt, decide_eq_true_eq]
    split <;> omega

theorem isMax_or (t : CollType) : t.IsMax ∨ t.combine = fun a b => a + b := by
  cases t with
  | addUint16 | addInt16 => exact Or.inr rfl
  | maxUint16 => exact Or.inl (Or.inl rfl)
  | maxInt16 => exact Or.inl (Or.inr rfl)

theorem combine_comm (t : CollType) (a b : BitVec 16) : t.combine a b = t.combine b a := by
  rcases t.isMax_or with isMax | add
  · refine t.key_injective ?_
    rw [key_combine isMax, key_combine isMax, max_comm]
  · rw [add]
    exact BitVec.add_comm a b

theorem combine_assoc (t : CollType) (a b d : BitVec 16) :
    t.combine (t.combine a b) d = t.combine a (t.combine b d) := by
  rcases t.isMax_or with isMax | add
  · refine t.key_injective ?_
    simp only [key_combine isMax, max_assoc]
  · rw [add]
    exact BitVec.add_assoc a b d

theorem key_unit_le {t : CollType} (isMax : t.IsMax) (a : BitVec 16) : t.key t.unit ≤ t.key a := by
  rcases isMax with rfl | rfl
  · exact Int.natCast_nonneg _
  · have low := BitVec.le_toInt a
    have unit : (BitVec.intMin 16).toInt = -2 ^ 15 := by decide
    show (BitVec.intMin 16).toInt ≤ a.toInt
    omega

theorem combine_unit (t : CollType) (a : BitVec 16) : t.combine a t.unit = a := by
  rcases t.isMax_or with isMax | add
  · refine t.key_injective ?_
    rw [key_combine isMax, max_eq_left (key_unit_le isMax a)]
  · have zero : t.unit = 0 := by
      cases t with
      | addUint16 | addInt16 | maxUint16 => rfl
      | maxInt16 => exact absurd (congrFun (congrFun add 1) 1) (by decide)
    rw [add, zero]
    exact BitVec.add_zero a

end CollType

section

variable {n : Nat} {t : CollType}

instance : Std.Commutative (processCollectiveOperations (n := n) t) where
  comm a b := funext fun i => t.combine_comm (a i) (b i)

instance : Std.Associative (processCollectiveOperations (n := n) t) where
  assoc a b d := funext fun i => t.combine_assoc (a i) (b i) (d i)

/-- The buffer of neutral elements. -/
def unitBuffer (t : CollType) (n : Nat) : Buffer n := fun _ => t.unit

theorem process_unit (a : Buffer n) : processCollectiveOperations t a (unitBuffer t n) = a :=
  funext fun i => t.combine_unit (a i)

/-- The merge of a collection of buffers. -/
def merged (t : CollType) (bs : Multiset (Buffer n)) : Buffer n :=
  bs.fold (processCollectiveOperations t) (unitBuffer t n)

@[simp] theorem merged_zero : merged t (0 : Multiset (Buffer n)) = unitBuffer t n := rfl

@[simp] theorem merged_cons (b : Buffer n) (bs : Multiset (Buffer n)) :
    merged t (b ::ₘ bs) = processCollectiveOperations t b (merged t bs) :=
  Multiset.fold_cons_left _ _ _ _

theorem process_comm (a b : Buffer n) :
    processCollectiveOperations t a b = processCollectiveOperations t b a :=
  Std.Commutative.comm a b

theorem process_assoc (a b d : Buffer n) :
    processCollectiveOperations t (processCollectiveOperations t a b) d =
      processCollectiveOperations t a (processCollectiveOperations t b d) :=
  Std.Associative.assoc a b d

/-! ## Trees -/

/-- Kids of `p` among `ids`. -/
def kids (reqs : Nat → Request n) (ids : Multiset Nat) (p : Nat) : Nat :=
  ids.countP fun v => (reqs v).parent = some p

/-- The requests of `L` are on their way, those of `W` wait for their kids. -/
structure TreeInv (reqs : Nat → Request n) (fresh : Nat) (L W : Multiset Nat) : Prop where
  nodup : (L + W).Nodup
  lt_fresh : ∀ v ∈ L + W, v < fresh
  parent : ∀ v ∈ L + W, (v = 0 ∧ (reqs v).parent = none) ∨
    ∃ p ∈ W, (reqs v).parent = some p ∧ p < v
  pending : ∀ p ∈ W, (reqs p).pendKids = kids reqs (L + W) p ∧ 0 < kids reqs (L + W) p
  leaf : ∀ v ∈ L, (reqs v).pendKids = 0

/-- The merge of the buffers of waiting requests. -/
def waiting (t : CollType) (reqs : Nat → Request n) (W : Multiset Nat) : Buffer n :=
  merged t (W.map fun v => (reqs v).data)

namespace TreeInv

variable {reqs : Nat → Request n} {fresh : Nat} {L W : Multiset Nat}

/-- Without a root there are no requests. -/
theorem eq_zero_of_no_root (h : TreeInv reqs fresh L W) (noRoot : 0 ∉ L + W) :
    L = 0 ∧ W = 0 := by
  suffices empty : ∀ v, v ∉ L + W from
    ⟨Multiset.eq_zero_of_forall_notMem fun v hv => empty v (Multiset.mem_add.mpr (Or.inl hv)),
      Multiset.eq_zero_of_forall_notMem fun v hv => empty v (Multiset.mem_add.mpr (Or.inr hv))⟩
  intro v
  induction v using Nat.strongRecOn with
  | ind v ih =>
    intro hv
    rcases h.parent v hv with ⟨rfl, -⟩ | ⟨p, hp, -, less⟩
    · exact noRoot hv
    · exact ih p less (Multiset.mem_add.mpr (Or.inr hp))

/-- Without a request on its way none waits. -/
theorem eq_zero_of_no_leaf (h : TreeInv reqs fresh 0 W) : W = 0 := by
  refine Multiset.eq_zero_of_forall_notMem fun p => ?_
  induction hk : fresh - p using Nat.strongRecOn generalizing p with
  | ind k ih =>
    intro hp
    obtain ⟨v, hv, isKid⟩ := Multiset.countP_pos.mp (h.pending p hp).2
    have below := h.lt_fresh v hv
    rw [Multiset.zero_add] at hv
    rcases h.parent v (by rwa [Multiset.zero_add]) with ⟨-, none⟩ | ⟨q, -, some, less⟩
    · rw [none] at isKid
      cases isKid
    · obtain rfl : q = p := Option.some.inj (some.symm.trans isKid)
      exact ih (fresh - v) (by omega) v rfl hv

/-- Only the parents of requests matter for who is whose kid. -/
theorem kids_congr {reqs' : Nat → Request n} (same : ∀ v, (reqs' v).parent = (reqs v).parent)
    (ids : Multiset Nat) (p : Nat) : kids reqs' ids p = kids reqs ids p := by
  unfold kids
  simp only [same]

/-- The buffers do not matter for the tree. -/
theorem set_data (h : TreeInv reqs fresh L W) {reqs' : Nat → Request n}
    (parents : ∀ v, (reqs' v).parent = (reqs v).parent)
    (pending : ∀ v, (reqs' v).pendKids = (reqs v).pendKids) : TreeInv reqs' fresh L W := by
  refine ⟨h.nodup, h.lt_fresh, fun v hv => ?_, fun p hp => ?_, fun v hv => ?_⟩
  · rw [parents]
    exact h.parent v hv
  · rw [pending, kids_congr parents]
    exact h.pending p hp
  · rw [pending]
    exact h.leaf v hv

variable {v p : Nat}

theorem parent_mem (h : TreeInv reqs fresh (v ::ₘ L) W) (hp : (reqs v).parent = some p) :
    p ∈ W ∧ p < v := by
  rcases h.parent v (by simp) with ⟨-, none⟩ | ⟨q, hq, some, less⟩
  · rw [none] at hp
    cases hp
  · obtain rfl : q = p := Option.some.inj (some.symm.trans hp)
    exact ⟨hq, less⟩

/-- The parent after one of its kids ended. -/
def afterKid (reqs : Nat → Request n) (p : Nat) (data : Buffer n) : Nat → Request n :=
  Function.update reqs p ⟨(reqs p).parent, (reqs p).pendKids - 1, data⟩

theorem afterKid_parent (data : Buffer n) (u : Nat) :
    (afterKid reqs p data u).parent = (reqs u).parent := by
  unfold afterKid
  by_cases same : u = p
  · subst same
    rw [Function.update_self]
  · rw [Function.update_of_ne same]

theorem afterKid_of_ne (data : Buffer n) {u : Nat} (other : u ≠ p) :
    afterKid reqs p data u = reqs u := Function.update_of_ne other _ _

/-- The ended request was one of the kids of its parent. -/
theorem kids_cons (hp : (reqs v).parent = some p) (q : Nat) :
    kids reqs (v ::ₘ L + W) q = kids reqs (L + W) q + if q = p then 1 else 0 := by
  unfold kids
  rw [Multiset.cons_add, Multiset.countP_cons, hp]
  simp only [Option.some.injEq, eq_comm]

/-- Without its root a tree would still satisfy the invariant. -/
theorem drop_root (h : TreeInv reqs fresh (v ::ₘ L) W) (hp : (reqs v).parent = none) :
    TreeInv reqs fresh L W := by
  have rest : ∀ u ∈ L + W, u ∈ v ::ₘ L + W := fun u hu => by
    rw [Multiset.cons_add]
    exact Multiset.mem_cons_of_mem hu
  refine ⟨?_, fun u hu => h.lt_fresh u (rest u hu), fun u hu => h.parent u (rest u hu),
    fun q hq => ?_, fun u hu => h.leaf u (Multiset.mem_cons_of_mem hu)⟩
  · have := h.nodup
    rw [Multiset.cons_add, Multiset.nodup_cons] at this
    exact this.2
  · have before := h.pending q hq
    unfold kids at before ⊢
    rw [Multiset.cons_add, Multiset.countP_cons_of_neg _ (by rw [hp]; exact nofun)] at before
    exact before

/-- A request ended and its parent still has kids to wait for. -/
theorem merge_waits (h : TreeInv reqs fresh (v ::ₘ L) W) (hp : (reqs v).parent = some p)
    (more : ¬ (reqs p).pendKids - 1 ≤ 0) (data : Buffer n) :
    TreeInv (afterKid reqs p data) fresh L W := by
  obtain ⟨pW, less⟩ := h.parent_mem hp
  have rest : ∀ u ∈ L + W, u ∈ v ::ₘ L + W := fun u hu => by
    rw [Multiset.cons_add]
    exact Multiset.mem_cons_of_mem hu
  have apart : ∀ u ∈ L, u ≠ p := by
    rintro u hu rfl
    have twice := h.nodup
    rw [Multiset.cons_add, Multiset.nodup_cons] at twice
    exact Multiset.disjoint_left.mp (Multiset.nodup_add.mp twice.2).2.2 hu pW
  refine ⟨?_, fun u hu => h.lt_fresh u (rest u hu), fun u hu => ?_, fun q hq => ?_, fun u hu => ?_⟩
  · have := h.nodup
    rw [Multiset.cons_add, Multiset.nodup_cons] at this
    exact this.2
  · rw [afterKid_parent]
    exact h.parent u (rest u hu)
  · have before := h.pending q hq
    rw [kids_cons hp q] at before
    rw [kids_congr (afterKid_parent data)]
    by_cases same : q = p
    · subst same
      rw [if_pos rfl] at before
      have count : (afterKid reqs q data q).pendKids = (reqs q).pendKids - 1 := by
        unfold afterKid
        rw [Function.update_self]
      rw [count]
      omega
    · rw [if_neg same] at before
      rw [afterKid_of_ne data same]
      exact before
  · rw [afterKid_of_ne data (apart u hu)]
    exact h.leaf u (Multiset.mem_cons_of_mem hu)

/-- A request ended and was the last kid of its parent, which ends next. -/
theorem merge_last (h : TreeInv reqs fresh (v ::ₘ L) W) (hp : (reqs v).parent = some p)
    (last : (reqs p).pendKids - 1 ≤ 0) (data : Buffer n) :
    TreeInv (afterKid reqs p data) fresh (p ::ₘ L) (W.erase p) := by
  obtain ⟨pW, less⟩ := h.parent_mem hp
  have same : p ::ₘ L + W.erase p = L + W := by
    rw [Multiset.cons_add, ← Multiset.add_cons, Multiset.cons_erase pW]
  have rest : ∀ u ∈ L + W, u ∈ v ::ₘ L + W := fun u hu => by
    rw [Multiset.cons_add]
    exact Multiset.mem_cons_of_mem hu
  have nodup : (L + W).Nodup := by
    have := h.nodup
    rw [Multiset.cons_add, Multiset.nodup_cons] at this
    exact this.2
  have only : kids reqs (L + W) p = 0 ∧ (reqs p).pendKids = 1 := by
    have before := h.pending p pW
    rw [kids_cons hp p, if_pos rfl] at before
    omega
  have apart : ∀ q ∈ W.erase p, q ≠ p := fun q hq =>
    ((Multiset.Nodup.mem_erase_iff (Multiset.nodup_add.mp nodup).2.1).mp hq).1
  refine ⟨?_, fun u hu => ?_, fun u hu => ?_, fun q hq => ?_, fun u hu => ?_⟩
  · rw [same]
    exact nodup
  · rw [same] at hu
    exact h.lt_fresh u (rest u hu)
  · rw [same] at hu
    rw [afterKid_parent]
    rcases h.parent u (rest u hu) with root | ⟨q, hq, isParent, lt⟩
    · exact Or.inl root
    · refine Or.inr ⟨q, ?_, isParent, lt⟩
      rw [Multiset.mem_erase_of_ne ?_]
      · exact hq
      · rintro rfl
        exact Multiset.countP_eq_zero.mp only.1 u hu isParent
  · have before := h.pending q (Multiset.mem_of_mem_erase hq)
    rw [kids_cons hp q, if_neg (apart q hq)] at before
    rw [same, kids_congr (afterKid_parent data), afterKid_of_ne data (apart q hq)]
    exact before
  · rcases Multiset.mem_cons.mp hu with rfl | huL
    · unfold afterKid
      rw [Function.update_self]
      show (reqs u).pendKids - 1 = 0
      omega
    · have other : u ≠ p := by
        rintro rfl
        exact Multiset.disjoint_left.mp (Multiset.nodup_add.mp nodup).2.2 huL pW
      rw [afterKid_of_ne data other]
      exact h.leaf u (Multiset.mem_cons_of_mem huL)

/-! ### New kids -/

/-- The requests after `p` got the kid `fresh`. -/
def spawned (reqs : Nat → Request n) (fresh p : Nat) : Nat → Request n :=
  Function.update (Function.update reqs fresh ⟨some p, 0, (reqs p).data⟩) p
    ⟨(reqs p).parent, (reqs p).pendKids + 1, (reqs p).data⟩

theorem spawned_self : spawned reqs fresh p p =
    ⟨(reqs p).parent, (reqs p).pendKids + 1, (reqs p).data⟩ := Function.update_self _ _ _

theorem spawned_fresh (other : fresh ≠ p) :
    spawned reqs fresh p fresh = ⟨some p, 0, (reqs p).data⟩ := by
  unfold spawned
  rw [Function.update_of_ne other, Function.update_self]

theorem spawned_of_ne {u : Nat} (hf : u ≠ fresh) (hp : u ≠ p) :
    spawned reqs fresh p u = reqs u := by
  unfold spawned
  rw [Function.update_of_ne hp, Function.update_of_ne hf]

theorem spawned_parent {u : Nat} (hf : u ≠ fresh) :
    (spawned reqs fresh p u).parent = (reqs u).parent := by
  by_cases same : u = p
  · subst same
    rw [spawned_self]
  · rw [spawned_of_ne hf same]

theorem spawned_data {u : Nat} (hf : u ≠ fresh) :
    (spawned reqs fresh p u).data = (reqs u).data := by
  by_cases same : u = p
  · subst same
    rw [spawned_self]
  · rw [spawned_of_ne hf same]

/-- The new request is a kid of `p` and of no other. -/
theorem kids_spawned {ids : Multiset Nat} (new : ∀ u ∈ ids, u < fresh) (hp : fresh ≠ p) (q : Nat) :
    kids (spawned reqs fresh p) (fresh ::ₘ ids) q = kids reqs ids q + if q = p then 1 else 0 := by
  have old : kids (spawned reqs fresh p) ids q = kids reqs ids q := by
    unfold kids
    refine Multiset.countP_congr rfl fun u hu => ?_
    rw [spawned_parent (Nat.ne_of_lt (new u hu))]
  rw [← old]
  unfold kids
  rw [Multiset.countP_cons, spawned_fresh hp]
  simp only [Option.some.injEq, eq_comm]

/-- The first kid of a request on its way: the request starts to wait. -/
theorem spawn_first (h : TreeInv reqs fresh (p ::ₘ L) W) :
    TreeInv (spawned reqs fresh p) (fresh + 1) (fresh ::ₘ L) (p ::ₘ W) := by
  have shape : fresh ::ₘ L + p ::ₘ W = fresh ::ₘ (p ::ₘ L + W) := by
    rw [Multiset.add_cons, Multiset.cons_add, Multiset.cons_add, Multiset.cons_swap]
  have hp : fresh ≠ p := Nat.ne_of_gt (h.lt_fresh p (by simp))
  have old : ∀ u ∈ p ::ₘ L + W, u ≠ fresh := fun u hu => Nat.ne_of_lt (h.lt_fresh u hu)
  have pNotW : p ∉ W := fun pW =>
    Multiset.disjoint_left.mp (Multiset.nodup_add.mp h.nodup).2.2 (Multiset.mem_cons_self p L) pW
  have pNotL : p ∉ L := (Multiset.nodup_cons.mp (Multiset.nodup_add.mp h.nodup).1).1
  have childless : kids reqs (p ::ₘ L + W) p = 0 := by
    refine Multiset.countP_eq_zero.mpr fun u hu isKid => ?_
    rcases h.parent u hu with ⟨-, none⟩ | ⟨q, hq, some, -⟩
    · rw [none] at isKid
      cases isKid
    · obtain rfl : q = p := Option.some.inj (some.symm.trans isKid)
      exact pNotW hq
  refine ⟨?_, fun u hu => ?_, fun u hu => ?_, fun q hq => ?_, fun u hu => ?_⟩
  · rw [shape]
    exact Multiset.nodup_cons.mpr ⟨fun hf => old fresh hf rfl, h.nodup⟩
  · rw [shape] at hu
    rcases Multiset.mem_cons.mp hu with rfl | hu
    · exact Nat.lt_succ_self _
    · exact Nat.lt_succ_of_lt (h.lt_fresh u hu)
  · rw [shape] at hu
    rcases Multiset.mem_cons.mp hu with rfl | hu
    · exact Or.inr ⟨p, Multiset.mem_cons_self _ _, by rw [spawned_fresh hp],
        h.lt_fresh p (by simp)⟩
    · rw [spawned_parent (old u hu)]
      exact (h.parent u hu).imp id fun ⟨q, hq, rest⟩ => ⟨q, Multiset.mem_cons_of_mem hq, rest⟩
  · rw [shape, kids_spawned h.lt_fresh hp]
    rcases Multiset.mem_cons.mp hq with rfl | hqW
    · rw [spawned_self, childless, if_pos rfl]
      have none := h.leaf q (Multiset.mem_cons_self _ _)
      exact ⟨by show (reqs q).pendKids + 1 = _; omega, by omega⟩
    · have other : q ≠ p := fun same => pNotW (same ▸ hqW)
      rw [if_neg other, Nat.add_zero,
        spawned_of_ne (old q (Multiset.mem_add.mpr (Or.inr hqW))) other]
      exact h.pending q hqW
  · rcases Multiset.mem_cons.mp hu with rfl | huL
    · rw [spawned_fresh hp]
    · have other : u ≠ p := fun same => pNotL (same ▸ huL)
      have mem : u ∈ p ::ₘ L := Multiset.mem_cons_of_mem huL
      rw [spawned_of_ne (old u (Multiset.mem_add.mpr (Or.inl mem))) other]
      exact h.leaf u mem

/-- A further kid of a request that waits already. -/
theorem spawn_next (h : TreeInv reqs fresh L W) (pW : p ∈ W) :
    TreeInv (spawned reqs fresh p) (fresh + 1) (fresh ::ₘ L) W := by
  have hp : fresh ≠ p := Nat.ne_of_gt (h.lt_fresh p (Multiset.mem_add.mpr (Or.inr pW)))
  have old : ∀ u ∈ L + W, u ≠ fresh := fun u hu => Nat.ne_of_lt (h.lt_fresh u hu)
  have apart : ∀ u ∈ L, u ≠ p := by
    rintro u hu rfl
    exact Multiset.disjoint_left.mp (Multiset.nodup_add.mp h.nodup).2.2 hu pW
  refine ⟨?_, fun u hu => ?_, fun u hu => ?_, fun q hq => ?_, fun u hu => ?_⟩
  · rw [Multiset.cons_add]
    exact Multiset.nodup_cons.mpr ⟨fun hf => old fresh hf rfl, h.nodup⟩
  · rw [Multiset.cons_add] at hu
    rcases Multiset.mem_cons.mp hu with rfl | hu
    · exact Nat.lt_succ_self _
    · exact Nat.lt_succ_of_lt (h.lt_fresh u hu)
  · rw [Multiset.cons_add] at hu
    rcases Multiset.mem_cons.mp hu with rfl | hu
    · exact Or.inr ⟨p, pW, by rw [spawned_fresh hp],
        h.lt_fresh p (Multiset.mem_add.mpr (Or.inr pW))⟩
    · rw [spawned_parent (old u hu)]
      exact h.parent u hu
  · have before := h.pending q hq
    rw [Multiset.cons_add, kids_spawned h.lt_fresh hp]
    by_cases same : q = p
    · subst same
      rw [spawned_self, if_pos rfl]
      exact ⟨by show (reqs q).pendKids + 1 = _; omega, by omega⟩
    · rw [if_neg same, Nat.add_zero, spawned_of_ne (old q (Multiset.mem_add.mpr (Or.inr hq))) same]
      exact before
  · rcases Multiset.mem_cons.mp hu with rfl | huL
    · rw [spawned_fresh hp]
    · rw [spawned_of_ne (old u (Multiset.mem_add.mpr (Or.inl huL))) (apart u huL)]
      exact h.leaf u huL

end TreeInv

/-! ## The end of a request -/

theorem waiting_cons (reqs : Nat → Request n) (p : Nat) (W : Multiset Nat) :
    waiting t reqs (p ::ₘ W) = processCollectiveOperations t (reqs p).data (waiting t reqs W) := by
  unfold waiting
  rw [Multiset.map_cons, merged_cons]

theorem waiting_congr {reqs reqs' : Nat → Request n} {W : Multiset Nat}
    (same : ∀ v ∈ W, (reqs' v).data = (reqs v).data) : waiting t reqs' W = waiting t reqs W := by
  unfold waiting
  rw [Multiset.map_congr rfl same]

/-- Merging data into a waiting request merges it into all of them. -/
theorem waiting_afterKid (reqs : Nat → Request n) {W : Multiset Nat} {p : Nat} (nodup : W.Nodup)
    (pW : p ∈ W) (d : Buffer n) :
    waiting t (TreeInv.afterKid reqs p (processCollectiveOperations t (reqs p).data d)) W =
      processCollectiveOperations t (waiting t reqs W) d := by
  obtain ⟨W, rfl⟩ := Multiset.exists_cons_of_mem pW
  have apart : ∀ v ∈ W, v ≠ p := by
    rintro v hv rfl
    exact (Multiset.nodup_cons.mp nodup).1 hv
  have here : (TreeInv.afterKid reqs p (processCollectiveOperations t (reqs p).data d) p).data =
      processCollectiveOperations t (reqs p).data d := by
    unfold TreeInv.afterKid
    rw [Function.update_self]
  rw [waiting_cons, waiting_cons, here, waiting_congr fun v hv => by
    rw [TreeInv.afterKid_of_ne _ (apart v hv)]]
  rw [process_assoc, process_comm d, ← process_assoc]

/-- The end of a request merges its data once.  Either requests are left, and form a tree, or it was
the last and the initiator is answered. -/
theorem handleRequestEnd_spec {fresh : Nat} {L : Multiset Nat} (answers : List (Buffer n))
    {v : Nat} {fuel : Nat} {reqs : Nat → Request n} {W : Multiset Nat}
    (h : TreeInv reqs fresh (v ::ₘ L) W) (enough : v < fuel) :
    ∃ reqs' answers', handleRequestEnd t fuel reqs answers v = some (reqs', answers') ∧
      (∀ u, u ∉ W → reqs' u = reqs u) ∧
      ((answers' = answers ∧ ∃ W', TreeInv reqs' fresh L W' ∧ 0 ∈ L + W' ∧
          waiting t reqs' W' = processCollectiveOperations t (waiting t reqs W) (reqs v).data) ∨
        (L = 0 ∧ answers' =
          answers ++ [processCollectiveOperations t (waiting t reqs W) (reqs v).data])) := by
  induction v using Nat.strongRecOn generalizing fuel reqs W with
  | ind v ih =>
    obtain ⟨fuel, rfl⟩ : ∃ k, fuel = k + 1 := ⟨fuel - 1, by omega⟩
    rw [handleRequestEnd]
    cases hp : (reqs v).parent with
    | none =>
      -- the root ends: nothing else is left
      have root : v = 0 := by
        rcases h.parent v (by simp) with ⟨zero, -⟩ | ⟨q, -, some, -⟩
        · exact zero
        · rw [some] at hp
          cases hp
      have others : 0 ∉ L + W := by
        have := h.nodup
        rw [Multiset.cons_add, Multiset.nodup_cons, root] at this
        exact this.1
      obtain ⟨noLeaf, noWait⟩ := (h.drop_root hp).eq_zero_of_no_root others
      refine ⟨reqs, answers ++ [(reqs v).data], rfl, fun _ _ => rfl, Or.inr ⟨noLeaf, ?_⟩⟩
      rw [noWait, waiting, Multiset.map_zero, merged_zero, process_comm, process_unit]
    | some p =>
      obtain ⟨pW, less⟩ := h.parent_mem hp
      have nodupW : W.Nodup := (Multiset.nodup_add.mp h.nodup).2.1
      obtain ⟨data, hdata⟩ : ∃ data, data =
        processCollectiveOperations t (reqs p).data (reqs v).data := ⟨_, rfl⟩
      dsimp only
      rw [← hdata]
      change ∃ reqs' answers', (if (reqs p).pendKids - 1 ≤ 0
        then handleRequestEnd t fuel (TreeInv.afterKid reqs p data) answers p
        else some (TreeInv.afterKid reqs p data, answers)) = some (reqs', answers') ∧ _
      have merges := waiting_afterKid (t := t) reqs nodupW pW (reqs v).data
      rw [← hdata] at merges
      by_cases last : (reqs p).pendKids - 1 ≤ 0
      · rw [if_pos last]
        have below : p < fuel := by omega
        obtain ⟨reqs', answers', run, frame, result⟩ :=
          ih p less (h.merge_last hp last data) below
        have all : processCollectiveOperations t
            (waiting t (TreeInv.afterKid reqs p data) (W.erase p))
            (TreeInv.afterKid reqs p data p).data =
              processCollectiveOperations t (waiting t reqs W) (reqs v).data := by
          rw [← merges, ← Multiset.cons_erase pW, waiting_cons, Multiset.cons_erase pW,
            process_comm]
        rw [all] at result
        refine ⟨reqs', answers', run, fun u hu => ?_, result⟩
        rw [frame u fun member => hu (Multiset.mem_of_mem_erase member)]
        exact TreeInv.afterKid_of_ne data fun same => hu (same ▸ pW)
      · rw [if_neg last]
        have tree := h.merge_waits hp last data
        refine ⟨_, answers, rfl, fun u hu => TreeInv.afterKid_of_ne data fun same => hu (same ▸ pW),
          Or.inl ⟨rfl, W, tree, ?_, merges⟩⟩
        by_contra noRoot
        rw [(tree.eq_zero_of_no_root noRoot).2] at pW
        exact Multiset.notMem_zero p pW

end

end SoftHier.Noc
