import Mathlib.Data.List.Pairwise
import Mathlib.Data.List.Perm.Basic
import Mathlib.Order.Basic
import Mathlib.Tactic.Common

/-!
# Blocks, tilings and coalesced block lists

A `Block` is a half-open range of natural numbers given by its first element and its size.

* `Tiles lo hi bs`: the blocks `bs`, in any order, are nonempty, pairwise disjoint and together
  make up exactly `[lo, hi)`.
* `Coalesced bs`: the blocks are in ascending order with a gap between any two of them.
* `insertBlock x bs`: the coalesced list after giving `x` back to `bs`; a touching neighbour on
  either side is merged with it.
* `firstFit n bs`: take `n` elements off the front of the first block that has them.
* `Coalesced.eq_of_covers`: a coalesced list is determined by the elements of its blocks.

`Tiles.insertBlock`, `Coalesced.insertBlock`, `Tiles.firstFit` and `Coalesced.firstFit` say that
both operations keep a tiling and keep the list coalesced.
-/

namespace SoftHier

/-- A half-open range `[addr, addr + size)`. -/
structure Block where
  addr : Nat
  size : Nat
  deriving DecidableEq, Repr

namespace Block

/-- The first element past the block. -/
def stop (b : Block) : Nat := b.addr + b.size

instance : Membership Nat Block := ⟨fun b a => b.addr ≤ a ∧ a < b.stop⟩

theorem mem_def {a : Nat} {b : Block} : a ∈ b ↔ b.addr ≤ a ∧ a < b.stop := Iff.rfl

@[simp] theorem mem_mk {a p n : Nat} : a ∈ Block.mk p n ↔ p ≤ a ∧ a < p + n := Iff.rfl

@[simp] theorem stop_mk (p n : Nat) : (Block.mk p n).stop = p + n := rfl

/-- Two blocks share no element. -/
def Disjoint (b c : Block) : Prop := b.stop ≤ c.addr ∨ c.stop ≤ b.addr

theorem Disjoint.symm {b c : Block} (h : b.Disjoint c) : c.Disjoint b := Or.symm h

instance : Std.Symm Block.Disjoint where
  symm _ _ := Disjoint.symm

theorem Disjoint.not_mem {b c : Block} (h : b.Disjoint c) {a : Nat} (hb : a ∈ b) : a ∉ c := by
  intro hc
  rw [mem_def] at hb hc
  rcases h with h | h <;> omega

end Block

/-! ## Tilings -/

/-- The blocks of `bs`, in any order, partition `[lo, hi)` into nonempty ranges. -/
structure Tiles (lo hi : Nat) (bs : List Block) : Prop where
  positive : ∀ b ∈ bs, 0 < b.size
  disjoint : bs.Pairwise Block.Disjoint
  covers : ∀ a, (∃ b ∈ bs, a ∈ b) ↔ lo ≤ a ∧ a < hi

namespace Tiles

variable {lo hi : Nat} {bs cs : List Block}

theorem perm (h : Tiles lo hi bs) (same : bs.Perm cs) : Tiles lo hi cs where
  positive := fun b hb => h.positive b (same.mem_iff.mpr hb)
  disjoint := same.pairwise h.disjoint Block.Disjoint.symm
  covers := fun a => by
    rw [← h.covers a]
    simp only [same.mem_iff]

/-- A single nonempty block tiles its own range. -/
theorem single {p n : Nat} (hn : 0 < n) : Tiles p (p + n) [⟨p, n⟩] where
  positive := by simpa using hn
  disjoint := List.pairwise_singleton _ _
  covers := by simp

/-- Every block of a tiling lies inside the tiled range. -/
theorem bounds (h : Tiles lo hi bs) {b : Block} (hb : b ∈ bs) : lo ≤ b.addr ∧ b.stop ≤ hi := by
  have hpos := h.positive b hb
  have first := (h.covers b.addr).mp ⟨b, hb, by rw [Block.mem_def, Block.stop]; omega⟩
  have last := (h.covers (b.stop - 1)).mp ⟨b, hb, by rw [Block.mem_def, Block.stop]; omega⟩
  unfold Block.stop at *
  omega

/-- Part of a tiling covers what the rest of it leaves. -/
theorem covers_left (h : Tiles lo hi (bs ++ cs)) (a : Nat) :
    (∃ b ∈ bs, a ∈ b) ↔ (lo ≤ a ∧ a < hi) ∧ ¬ ∃ c ∈ cs, a ∈ c := by
  have apart := (List.pairwise_append.mp h.disjoint).2.2
  rw [← h.covers a]
  constructor
  · rintro ⟨b, hb, ha⟩
    have away : ¬ ∃ c ∈ cs, a ∈ c := by
      rintro ⟨c, hc, ha'⟩
      exact (apart b hb c hc).not_mem ha ha'
    exact ⟨⟨b, List.mem_append_left _ hb, ha⟩, away⟩
  · rintro ⟨⟨b, hb, ha⟩, away⟩
    rcases List.mem_append.mp hb with left | right
    · exact ⟨b, left, ha⟩
    · exact absurd ⟨b, right, ha⟩ away

/-- Two blocks of a tiling that share an element are the same. -/
theorem eq_of_mem (h : Tiles lo hi bs) {b c : Block} (hb : b ∈ bs) (hc : c ∈ bs) {a : Nat}
    (inb : a ∈ b) (inc : a ∈ c) : b = c := by
  by_contra other
  have apart : b.Disjoint c := h.disjoint.forall hb hc other
  exact apart.not_mem inb inc

/-- Cutting one block in two keeps the tiling. -/
theorem split {p n k : Nat} (h : Tiles lo hi (⟨p, n⟩ :: bs)) (hk : 0 < k) (hkn : k < n) :
    Tiles lo hi (⟨p, k⟩ :: ⟨p + k, n - k⟩ :: bs) where
  positive := by
    intro b hb
    rcases List.mem_cons.mp hb with rfl | hb
    · exact hk
    · rcases List.mem_cons.mp hb with rfl | hb
      · show 0 < n - k
        omega
      · exact h.positive b (List.mem_cons_of_mem _ hb)
  disjoint := by
    obtain ⟨head, tail⟩ := List.pairwise_cons.mp h.disjoint
    refine List.pairwise_cons.mpr ⟨fun c hc => ?_, List.pairwise_cons.mpr ⟨fun c hc => ?_, tail⟩⟩
    · rcases List.mem_cons.mp hc with rfl | hc
      · exact Or.inl (Nat.le_refl _)
      · have := head c hc
        simp only [Block.Disjoint, Block.stop_mk] at this ⊢
        omega
    · have := head c hc
      simp only [Block.Disjoint, Block.stop_mk] at this ⊢
      omega
  covers := by
    intro a
    rw [← h.covers a]
    simp only [List.mem_cons, exists_eq_or_imp, Block.mem_mk]
    constructor
    · rintro (h | h | h)
      · exact Or.inl (by omega)
      · exact Or.inl (by omega)
      · exact Or.inr h
    · rintro (h | h)
      · by_cases hlt : a < p + k
        · exact Or.inl (by omega)
        · exact Or.inr (Or.inl (by omega))
      · exact Or.inr (Or.inr h)

/-- Joining two touching blocks keeps the tiling. -/
theorem join {p n k : Nat} (h : Tiles lo hi (⟨p, n⟩ :: ⟨p + n, k⟩ :: bs)) :
    Tiles lo hi (⟨p, n + k⟩ :: bs) where
  positive := by
    have hn : 0 < n := h.positive ⟨p, n⟩ (by simp)
    intro b hb
    rcases List.mem_cons.mp hb with rfl | hb
    · show 0 < n + k
      omega
    · exact h.positive b (List.mem_cons_of_mem _ (List.mem_cons_of_mem _ hb))
  disjoint := by
    have hn : 0 < n := h.positive ⟨p, n⟩ (by simp)
    have hk : 0 < k := h.positive ⟨p + n, k⟩ (by simp)
    obtain ⟨first, rest⟩ := List.pairwise_cons.mp h.disjoint
    obtain ⟨second, tail⟩ := List.pairwise_cons.mp rest
    refine List.pairwise_cons.mpr ⟨fun c hc => ?_, tail⟩
    have hc1 := first c (List.mem_cons_of_mem _ hc)
    have hc2 := second c hc
    have hcpos := h.positive c (List.mem_cons_of_mem _ (List.mem_cons_of_mem _ hc))
    simp only [Block.Disjoint, Block.stop] at hc1 hc2 ⊢
    omega
  covers := by
    intro a
    rw [← h.covers a]
    simp only [List.mem_cons, exists_eq_or_imp, Block.mem_mk]
    constructor
    · rintro (h | h)
      · by_cases hlt : a < p + n
        · exact Or.inl (by omega)
        · exact Or.inr (Or.inl (by omega))
      · exact Or.inr (Or.inr h)
    · rintro (h | h | h)
      · exact Or.inl (by omega)
      · exact Or.inl (by omega)
      · exact Or.inr h

end Tiles

/-! ## Coalesced lists -/

/-- Ascending blocks with a gap between any two of them. -/
def Coalesced (bs : List Block) : Prop := bs.Pairwise fun b c => b.stop < c.addr

instance (bs : List Block) : Decidable (Coalesced bs) :=
  inferInstanceAs (Decidable (List.Pairwise _ bs))

/-- Put `x` before an ascending list, merging it with a touching head. -/
def joinNext (x : Block) : List Block → List Block
  | [] => [x]
  | c :: rest =>
      if x.stop = c.addr then ⟨x.addr, x.size + c.size⟩ :: rest else x :: c :: rest

/-- Give `x` back to an ascending list, merging it with the neighbours it touches. -/
def insertBlock (x : Block) : List Block → List Block
  | [] => [x]
  | b :: rest =>
      if b.addr < x.addr then joinNext b (insertBlock x rest) else joinNext x (b :: rest)

namespace Coalesced

variable {x b : Block} {bs cs : List Block}

theorem nil : Coalesced [] := List.Pairwise.nil

theorem cons_iff : Coalesced (b :: bs) ↔ (∀ c ∈ bs, b.stop < c.addr) ∧ Coalesced bs :=
  List.pairwise_cons

theorem append_iff : Coalesced (bs ++ cs) ↔
    Coalesced bs ∧ Coalesced cs ∧ ∀ b ∈ bs, ∀ c ∈ cs, b.stop < c.addr :=
  List.pairwise_append

/-- `b.addr` bounds every element of a coalesced list that starts at `b`. -/
theorem ascending (h : Coalesced bs) : bs.Pairwise fun b c => b.addr < c.addr :=
  h.imp fun hbc => Nat.lt_of_le_of_lt (Nat.le_add_right _ _) hbc

/-- In a coalesced list of nonempty blocks no block ends where another begins. -/
theorem stop_ne (h : Coalesced bs) (positive : ∀ b ∈ bs, 0 < b.size) :
    ∀ b ∈ bs, ∀ c ∈ bs, b.stop ≠ c.addr := by
  induction bs with
  | nil => exact fun _ hb => nomatch hb
  | cons d bs ih =>
    obtain ⟨after, rest⟩ := cons_iff.mp h
    have dpos := positive d List.mem_cons_self
    intro b hb c hc
    rcases List.mem_cons.mp hb with rfl | hbs
    · rcases List.mem_cons.mp hc with rfl | hcs
      · unfold Block.stop
        omega
      · exact Nat.ne_of_lt (after c hcs)
    · rcases List.mem_cons.mp hc with rfl | hcs
      · have := after b hbs
        unfold Block.stop at *
        omega
      · exact ih rest (fun b hb => positive b (List.mem_cons_of_mem _ hb)) b hbs c hcs

theorem addr_le_of_cons (h : Coalesced (b :: bs)) {c : Block} (hc : c ∈ b :: bs) :
    b.addr ≤ c.addr := by
  rcases List.mem_cons.mp hc with rfl | hc
  · exact Nat.le_refl _
  · have := (cons_iff.mp h).1 c hc
    unfold Block.stop at this
    omega

end Coalesced

/-- Where a coalesced list of nonempty blocks begins. -/
theorem Coalesced.head_le {b : Block} {bs : List Block} (h : Coalesced (b :: bs)) {a : Nat}
    (inside : ∃ c ∈ b :: bs, a ∈ c) : b.addr ≤ a := by
  obtain ⟨c, hc, ha⟩ := inside
  exact Nat.le_trans (h.addr_le_of_cons hc) ha.1

/-- The elements of the tail of a coalesced list are those behind its head. -/
theorem Coalesced.tail_covers {b : Block} {bs : List Block} (h : Coalesced (b :: bs)) {a : Nat} :
    (∃ c ∈ bs, a ∈ c) ↔ (∃ c ∈ b :: bs, a ∈ c) ∧ b.stop < a := by
  obtain ⟨after, -⟩ := cons_iff.mp h
  constructor
  · rintro ⟨c, hc, ha⟩
    exact ⟨⟨c, List.mem_cons_of_mem _ hc, ha⟩, Nat.lt_of_lt_of_le (after c hc) ha.1⟩
  · rintro ⟨⟨c, hc, ha⟩, behind⟩
    rcases List.mem_cons.mp hc with rfl | hc
    · exact absurd ha.2 (Nat.not_lt.mpr (Nat.le_of_lt behind))
    · exact ⟨c, hc, ha⟩

/-- The head of a coalesced list ends where its elements have the first gap. -/
theorem Coalesced.stop_not_covered {b : Block} {bs : List Block} (h : Coalesced (b :: bs)) :
    ¬ ∃ c ∈ b :: bs, b.stop ∈ c := by
  rintro ⟨c, hc, ha⟩
  rcases List.mem_cons.mp hc with rfl | hc
  · exact Nat.lt_irrefl _ ha.2
  · exact Nat.lt_irrefl _ (Nat.lt_of_lt_of_le ((cons_iff.mp h).1 c hc) ha.1)

/-- Of two coalesced lists of nonempty blocks with the same elements the heads are the same. -/
theorem Coalesced.head_eq {b c : Block} {bs cs : List Block} (hb : Coalesced (b :: bs))
    (hc : Coalesced (c :: cs)) (bpos : 0 < b.size) (cpos : 0 < c.size)
    (same : ∀ a, (∃ d ∈ b :: bs, a ∈ d) ↔ ∃ d ∈ c :: cs, a ∈ d) : b = c := by
  have bhead : b.addr ∈ b := ⟨Nat.le_refl _, Nat.lt_add_of_pos_right bpos⟩
  have chead : c.addr ∈ c := ⟨Nat.le_refl _, Nat.lt_add_of_pos_right cpos⟩
  have addr : b.addr = c.addr := Nat.le_antisymm
    (hb.head_le ((same _).mpr ⟨c, List.mem_cons_self, chead⟩))
    (hc.head_le ((same _).mp ⟨b, List.mem_cons_self, bhead⟩))
  have stop : b.stop = c.stop := by
    rcases Nat.lt_trichotomy b.stop c.stop with less | equal | more
    · have inside : b.stop ∈ c := ⟨by unfold Block.stop; omega, less⟩
      exact absurd ((same _).mpr ⟨c, List.mem_cons_self, inside⟩) hb.stop_not_covered
    · exact equal
    · have inside : c.stop ∈ b := ⟨by unfold Block.stop; omega, more⟩
      exact absurd ((same _).mp ⟨b, List.mem_cons_self, inside⟩) hc.stop_not_covered
  cases b
  cases c
  unfold Block.stop at stop
  dsimp only at addr stop
  rw [Block.mk.injEq]
  exact ⟨addr, by omega⟩

/-- A coalesced list of nonempty blocks is determined by its elements. -/
theorem Coalesced.eq_of_covers {bs cs : List Block} (hb : Coalesced bs) (hc : Coalesced cs)
    (bpos : ∀ b ∈ bs, 0 < b.size) (cpos : ∀ c ∈ cs, 0 < c.size)
    (same : ∀ a, (∃ b ∈ bs, a ∈ b) ↔ ∃ c ∈ cs, a ∈ c) : bs = cs := by
  have nonempty : ∀ {d : Block} {ds : List Block}, 0 < d.size → ∃ e ∈ d :: ds, d.addr ∈ e :=
    fun pos => ⟨_, List.mem_cons_self, Nat.le_refl _, Nat.lt_add_of_pos_right pos⟩
  induction bs generalizing cs with
  | nil =>
    cases cs with
    | nil => rfl
    | cons c cs =>
      obtain ⟨b, mem, -⟩ := (same _).mpr (nonempty (cpos c List.mem_cons_self))
      cases mem
  | cons b bs ih =>
    cases cs with
    | nil =>
      obtain ⟨c, mem, -⟩ := (same _).mp (nonempty (bpos b List.mem_cons_self))
      cases mem
    | cons c cs =>
      obtain rfl := hb.head_eq hc (bpos b List.mem_cons_self) (cpos c List.mem_cons_self) same
      rw [ih (cons_iff.mp hb).2 (cons_iff.mp hc).2 (fun d hd => bpos d (List.mem_cons_of_mem _ hd))
        (fun d hd => cpos d (List.mem_cons_of_mem _ hd)) fun a => ?_]
      rw [hb.tail_covers, hc.tail_covers, same]

theorem joinNext_of_touch {x c : Block} {rest : List Block} (touch : x.stop = c.addr) :
    joinNext x (c :: rest) = ⟨x.addr, x.size + c.size⟩ :: rest := if_pos touch

theorem joinNext_of_gap {x c : Block} {rest : List Block} (gap : x.stop ≠ c.addr) :
    joinNext x (c :: rest) = x :: c :: rest := if_neg gap

theorem insertBlock_of_lt {x b : Block} {rest : List Block} (before : b.addr < x.addr) :
    insertBlock x (b :: rest) = joinNext b (insertBlock x rest) := if_pos before

theorem insertBlock_of_le {x b : Block} {rest : List Block} (after : x.addr ≤ b.addr) :
    insertBlock x (b :: rest) = joinNext x (b :: rest) := if_neg (Nat.not_lt.mpr after)

/-- Nothing is merged across a gap. -/
theorem joinNext_of_after {x : Block} {bs : List Block} (after : ∀ c ∈ bs, x.stop < c.addr) :
    joinNext x bs = x :: bs := by
  cases bs with
  | nil => rfl
  | cons c rest => exact joinNext_of_gap (Nat.ne_of_lt (after c List.mem_cons_self))

theorem insertBlock_of_head {x : Block} {bs : List Block} (head : ∀ c ∈ bs.head?, x.addr ≤ c.addr) :
    insertBlock x bs = joinNext x bs := by
  cases bs with
  | nil => rfl
  | cons c rest => exact insertBlock_of_le (head c rfl)

/-! ### Merging keeps the tiling -/

theorem Tiles.joinNext {lo hi : Nat} {x : Block} {bs others : List Block}
    (h : Tiles lo hi (x :: bs ++ others)) : Tiles lo hi (joinNext x bs ++ others) := by
  cases bs with
  | nil => exact h
  | cons c rest =>
      by_cases touch : x.stop = c.addr
      · rw [joinNext_of_touch touch]
        have shape : c = ⟨x.addr + x.size, c.size⟩ := by
          rw [show x.addr + x.size = c.addr from touch]
        rw [shape] at h
        exact Tiles.join h
      · rw [joinNext_of_gap touch]
        exact h

/-- Giving a block back keeps the tiling of everything. -/
theorem Tiles.insertBlock {lo hi : Nat} {x : Block} {bs : List Block} :
    ∀ {others : List Block}, Tiles lo hi (x :: bs ++ others) →
      Tiles lo hi (insertBlock x bs ++ others) := by
  induction bs with
  | nil => exact fun h => h
  | cons b rest ih =>
      intro others h
      by_cases before : b.addr < x.addr
      · rw [insertBlock_of_lt before]
        apply Tiles.joinNext
        have moved : Tiles lo hi (x :: rest ++ b :: others) := by
          refine h.perm (List.Perm.cons x ?_)
          exact List.perm_middle.symm
        exact (ih moved).perm List.perm_middle
      · rw [insertBlock_of_le (Nat.not_lt.mp before)]
        exact h.joinNext

/-! ### Merging keeps the list coalesced -/

theorem Coalesced.joinNext {x : Block} {bs : List Block} (h : Coalesced bs)
    (after : ∀ c ∈ bs, x.stop ≤ c.addr) : Coalesced (joinNext x bs) := by
  cases bs with
  | nil => exact List.pairwise_singleton _ _
  | cons c rest =>
      obtain ⟨gaps, tail⟩ := cons_iff.mp h
      have first := after c List.mem_cons_self
      by_cases touch : x.stop = c.addr
      · rw [joinNext_of_touch touch]
        refine cons_iff.mpr ⟨fun d hd => ?_, tail⟩
        have := gaps d hd
        simp only [Block.stop] at touch this ⊢
        omega
      · rw [joinNext_of_gap touch]
        refine cons_iff.mpr ⟨fun d hd => ?_, h⟩
        have := h.addr_le_of_cons hd
        omega

theorem le_addr_of_mem_joinNext {x : Block} {bs : List Block} {k : Nat} (hx : k ≤ x.addr)
    (after : ∀ c ∈ bs, k ≤ c.addr) : ∀ c ∈ joinNext x bs, k ≤ c.addr := by
  cases bs with
  | nil => simpa [SoftHier.joinNext] using hx
  | cons b rest =>
      by_cases touch : x.stop = b.addr
      · rw [joinNext_of_touch touch]
        intro c hc
        rcases List.mem_cons.mp hc with rfl | hc
        · exact hx
        · exact after c (List.mem_cons_of_mem _ hc)
      · rw [joinNext_of_gap touch]
        intro c hc
        rcases List.mem_cons.mp hc with rfl | hc
        · exact hx
        · exact after c hc

theorem le_addr_of_mem_insertBlock {x : Block} {bs : List Block} {k : Nat} (hx : k ≤ x.addr)
    (after : ∀ c ∈ bs, k ≤ c.addr) : ∀ c ∈ insertBlock x bs, k ≤ c.addr := by
  induction bs with
  | nil => simpa [SoftHier.insertBlock] using hx
  | cons b rest ih =>
      by_cases before : b.addr < x.addr
      · rw [insertBlock_of_lt before]
        exact le_addr_of_mem_joinNext (after b List.mem_cons_self)
          (ih fun c hc => after c (List.mem_cons_of_mem _ hc))
      · rw [insertBlock_of_le (Nat.not_lt.mp before)]
        exact le_addr_of_mem_joinNext hx after

/-- Blocks in front of the predecessor of `x` are not affected by giving `x` back. -/
theorem insertBlock_append {x b : Block} {pre post : List Block}
    (h : Coalesced (pre ++ b :: post)) (before : b.addr < x.addr) :
    insertBlock x (pre ++ b :: post) = pre ++ joinNext b (insertBlock x post) := by
  induction pre with
  | nil => exact insertBlock_of_lt before
  | cons a pre ih =>
      obtain ⟨gaps, tail⟩ := Coalesced.cons_iff.mp h
      have hab : a.stop < b.addr := gaps b (by simp)
      have after : ∀ c ∈ insertBlock x (pre ++ b :: post), a.stop < c.addr :=
        le_addr_of_mem_insertBlock (by omega) gaps
      have first : a.addr < x.addr := by
        unfold Block.stop at hab
        omega
      rw [List.cons_append, insertBlock_of_lt first, joinNext_of_after after, ih tail,
        List.cons_append]

/-- Giving back a block that is disjoint from a coalesced list keeps it coalesced. -/
theorem Coalesced.insertBlock {x : Block} {bs : List Block} (h : Coalesced bs)
    (apart : ∀ b ∈ bs, x.Disjoint b) (xpos : 0 < x.size) (bpos : ∀ b ∈ bs, 0 < b.size) :
    Coalesced (insertBlock x bs) := by
  induction bs with
  | nil => exact List.pairwise_singleton _ _
  | cons b rest ih =>
      obtain ⟨gaps, tail⟩ := cons_iff.mp h
      have hb := apart b List.mem_cons_self
      have hpos := bpos b List.mem_cons_self
      by_cases before : b.addr < x.addr
      · rw [insertBlock_of_lt before]
        have stops : b.stop ≤ x.addr := by
          rcases hb with hb | hb
          · simp only [Block.stop] at hb ⊢
            omega
          · exact hb
        have rest' := ih tail (fun c hc => apart c (List.mem_cons_of_mem _ hc))
          (fun c hc => bpos c (List.mem_cons_of_mem _ hc))
        exact rest'.joinNext
          (le_addr_of_mem_insertBlock stops fun c hc => Nat.le_of_lt (gaps c hc))
      · rw [insertBlock_of_le (Nat.not_lt.mp before)]
        have stops : x.stop ≤ b.addr := by
          rcases hb with hb | hb
          · exact hb
          · simp only [Block.stop] at hb ⊢
            omega
        exact h.joinNext fun c hc => Nat.le_trans stops (h.addr_le_of_cons hc)

/-! ### Properties closed under merging -/

/-- A property of blocks that survives merging two touching blocks. -/
def JoinClosed (P : Block → Prop) : Prop :=
  ∀ b c : Block, P b → P c → b.stop = c.addr → P ⟨b.addr, b.size + c.size⟩

theorem JoinClosed.joinNext {P : Block → Prop} (closed : JoinClosed P) {x : Block}
    {bs : List Block} (hx : P x) (hbs : ∀ b ∈ bs, P b) : ∀ b ∈ joinNext x bs, P b := by
  cases bs with
  | nil => simpa [SoftHier.joinNext] using hx
  | cons c rest =>
      by_cases touch : x.stop = c.addr
      · rw [joinNext_of_touch touch]
        intro b hb
        rcases List.mem_cons.mp hb with rfl | hb
        · exact closed x c hx (hbs c List.mem_cons_self) touch
        · exact hbs b (List.mem_cons_of_mem _ hb)
      · rw [joinNext_of_gap touch]
        intro b hb
        rcases List.mem_cons.mp hb with rfl | hb
        · exact hx
        · exact hbs b hb

theorem JoinClosed.insertBlock {P : Block → Prop} (closed : JoinClosed P) {x : Block}
    {bs : List Block} (hx : P x) (hbs : ∀ b ∈ bs, P b) : ∀ b ∈ insertBlock x bs, P b := by
  induction bs with
  | nil => simpa [SoftHier.insertBlock] using hx
  | cons c rest ih =>
      by_cases before : c.addr < x.addr
      · rw [insertBlock_of_lt before]
        exact closed.joinNext (hbs c List.mem_cons_self)
          (ih fun b hb => hbs b (List.mem_cons_of_mem _ hb))
      · rw [insertBlock_of_le (Nat.not_lt.mp before)]
        exact closed.joinNext hx hbs

/-! ## First fit -/

/-- What is left of `c` after `n` elements are taken off its front. -/
def cutFront (c : Block) (n : Nat) : List Block :=
  if c.size = n then [] else [⟨c.addr + n, c.size - n⟩]

/-- Take `n` elements off the front of the first block that has them: the address taken and the
remaining blocks. -/
def firstFit (n : Nat) : List Block → Option (Nat × List Block)
  | [] => none
  | c :: rest =>
      if c.size < n then (firstFit n rest).map fun (p, left) => (p, c :: left)
      else some (c.addr, cutFront c n ++ rest)

theorem firstFit_isSome {n : Nat} {bs : List Block} (room : ¬ ∀ b ∈ bs, b.size < n) :
    ∃ r, firstFit n bs = some r := by
  induction bs with
  | nil => exact absurd (fun _ hb => nomatch hb) room
  | cons c bs ih =>
    unfold firstFit
    split
    · rename_i small
      obtain ⟨r, found⟩ := ih fun all => room (List.forall_mem_cons.mpr ⟨small, all⟩)
      rw [found]
      exact ⟨_, rfl⟩
    · exact ⟨_, rfl⟩

theorem firstFit_append {n : Nat} {pre post : List Block} {c : Block}
    (small : ∀ b ∈ pre, b.size < n) (fits : n ≤ c.size) :
    firstFit n (pre ++ c :: post) = some (c.addr, pre ++ (cutFront c n ++ post)) := by
  induction pre with
  | nil => simp [firstFit, Nat.not_lt.mpr fits]
  | cons b pre ih =>
      have tail := ih fun d hd => small d (List.mem_cons_of_mem _ hd)
      simp [firstFit, small b List.mem_cons_self, tail]

/-- A first fit splits the list at the block it takes from. -/
theorem firstFit_eq_some {n p : Nat} {bs left : List Block} (h : firstFit n bs = some (p, left)) :
    ∃ pre c post, bs = pre ++ c :: post ∧ (∀ b ∈ pre, b.size < n) ∧ n ≤ c.size ∧
      p = c.addr ∧ left = pre ++ (cutFront c n ++ post) := by
  induction bs generalizing left with
  | nil => cases h
  | cons c rest ih =>
      by_cases small : c.size < n
      · simp only [firstFit, small, if_true, Option.map_eq_some_iff, Prod.mk.injEq,
          Prod.exists] at h
        obtain ⟨q, l, found, rfl, rfl⟩ := h
        obtain ⟨pre, d, post, rfl, hpre, fits, rfl, rfl⟩ := ih found
        refine ⟨c :: pre, d, post, rfl, fun b hb => ?_, fits, rfl, rfl⟩
        rcases List.mem_cons.mp hb with rfl | hb
        · exact small
        · exact hpre b hb
      · simp only [firstFit, small, if_false, Option.some.injEq, Prod.mk.injEq] at h
        obtain ⟨rfl, rfl⟩ := h
        exact ⟨[], c, rest, rfl, fun _ hb => (nomatch hb), Nat.not_lt.mp small, rfl, rfl⟩

/-- Where there is room there is a first block that has it. -/
theorem exists_firstFit {n : Nat} {bs : List Block} (room : ¬ ∀ b ∈ bs, b.size < n) :
    ∃ pre c post, bs = pre ++ c :: post ∧ (∀ b ∈ pre, b.size < n) ∧ n ≤ c.size := by
  obtain ⟨⟨p, left⟩, found⟩ := firstFit_isSome room
  obtain ⟨pre, c, post, split, small, fits, -, -⟩ := firstFit_eq_some found
  exact ⟨pre, c, post, split, small, fits⟩

/-- Cutting a block in a tiling leaves a tiling with the cut-off piece added. -/
theorem Tiles.cutFront {lo hi n : Nat} {c : Block} {others : List Block} (hn : 0 < n)
    (fits : n ≤ c.size) (h : Tiles lo hi (c :: others)) :
    Tiles lo hi (⟨c.addr, n⟩ :: (cutFront c n ++ others)) := by
  by_cases whole : c.size = n
  · rw [SoftHier.cutFront, if_pos whole, ← whole]
    exact h
  · rw [SoftHier.cutFront, if_neg whole]
    exact Tiles.split h hn (by omega)

theorem Tiles.firstFit {lo hi n p : Nat} {bs left others : List Block} (hn : 0 < n)
    (found : firstFit n bs = some (p, left)) (h : Tiles lo hi (bs ++ others)) :
    Tiles lo hi (left ++ ⟨p, n⟩ :: others) := by
  obtain ⟨pre, c, post, rfl, -, fits, rfl, rfl⟩ := firstFit_eq_some found
  have front : Tiles lo hi (c :: (pre ++ post ++ others)) := by
    refine h.perm ?_
    rw [List.append_assoc, List.append_assoc]
    exact List.perm_middle
  refine (front.cutFront hn fits).perm (List.perm_iff_count.mpr fun b => ?_)
  simp only [List.count_append, List.count_cons]
  omega

/-- Taking off the front of a block only widens the gap before it. -/
theorem Coalesced.firstFit {n p : Nat} {bs left : List Block} (h : Coalesced bs)
    (found : firstFit n bs = some (p, left)) : Coalesced left := by
  obtain ⟨pre, c, post, rfl, -, fits, rfl, rfl⟩ := firstFit_eq_some found
  obtain ⟨hpre, hrest, gaps⟩ := append_iff.mp h
  obtain ⟨after, hpost⟩ := cons_iff.mp hrest
  by_cases whole : c.size = n
  · rw [cutFront, if_pos whole]
    exact append_iff.mpr ⟨hpre, hpost, fun b hb d hd => gaps b hb d (List.mem_cons_of_mem _ hd)⟩
  · rw [cutFront, if_neg whole]
    refine append_iff.mpr ⟨hpre, cons_iff.mpr ⟨fun d hd => ?_, hpost⟩, fun b hb d hd => ?_⟩
    · have := after d hd
      simp only [Block.stop] at this ⊢
      omega
    · rcases List.mem_cons.mp hd with rfl | hd
      · have := gaps b hb c List.mem_cons_self
        show b.stop < c.addr + n
        omega
      · exact gaps b hb d (List.mem_cons_of_mem _ hd)

end SoftHier
