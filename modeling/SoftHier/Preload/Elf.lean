import SoftHier.Lib.Packing

/-!
# The preload image

`make_preload_elf` writes the arrays into a C file, each into a section of its own, and a linker
script that places the sections.  The addresses are computed twice, once for each file.

* `declare`, `linkScript`, `makePreloadElf`: the two passes, and the function.
* `link`: where a linker script places the sections.
* `Files.LaidOut`: requested addresses, aligned addresses, no overlaps, and the same addresses in
  both passes.
* `runs`, `RunsApart`: the arrays from one requested address to the next one.
* `laidOut_iff`: the image is laid out exactly if no run of automatic arrays meets an earlier run.
-/

namespace SoftHier.Preload

/-! ## Arrays -/

/-- `numpy.dtype` -/
inductive DType
  | int8 | uint8 | int16 | uint16 | int32 | uint32 | int64 | uint64 | float16 | float32 | float64
  | other (name : String) (itemsize : Nat)
  deriving DecidableEq, Repr

/-- `NP_DTYPE_TO_C` -/
def DType.toC : DType → Option String
  | .int8 => some "int8_t"
  | .uint8 => some "uint8_t"
  | .int16 => some "int16_t"
  | .uint16 => some "uint16_t"
  | .int32 => some "int32_t"
  | .uint32 => some "uint32_t"
  | .int64 => some "int64_t"
  | .uint64 => some "uint64_t"
  | .float16 => some "_Float16"
  | .float32 => some "float"
  | .float64 => some "double"
  | .other _ _ => none

/-- `dtype.itemsize` -/
def DType.itemsize : DType → Nat
  | .int8 | .uint8 => 1
  | .int16 | .uint16 | .float16 => 2
  | .int32 | .uint32 | .float32 => 4
  | .int64 | .uint64 | .float64 => 8
  | .other _ itemsize => itemsize

/-- `sizeof` of the C types, for the target of the compiler. -/
def sizeOfC (cType : String) : Nat :=
  match cType with
  | "int8_t" | "uint8_t" => 1
  | "int16_t" | "uint16_t" | "_Float16" => 2
  | "int32_t" | "uint32_t" | "float" => 4
  | "int64_t" | "uint64_t" | "double" => 8
  | _ => 0

/-- `numpy.ndarray`, by the type and the number of its elements. -/
structure NpArray where
  dtype : DType
  size : Nat
  deriving DecidableEq, Repr

/-- `array.nbytes` -/
def NpArray.nbytes (array : NpArray) : Nat := array.size * array.dtype.itemsize

/-! ## The two passes -/

/-- What `make_preload_elf` raises. -/
inductive PreloadError
  | lengths
  | dtype (dtype : DType)
  | unaligned (address : Int)
  deriving DecidableEq, Repr

/-- A definition in `array.c`: an array of the C type, in section `.custom_section_<index>`. -/
structure Definition where
  cType : String
  index : Nat
  elements : Nat
  deriving DecidableEq, Repr

/-- A line of `link.ld`: the location counter is set, or `.custom_section_<index>` is put out. -/
inductive LinkCommand
  | dot (address : Int)
  | output (index : Nat)
  deriving DecidableEq, Repr

/-- `alignment` -/
def alignment : Nat := 64

/-- The default of `current_address`. -/
def defaultAddress : Int := 0xc0000000

/-- `(current_address + alignment - 1) & ~(alignment - 1)` -/
def autoAddress (current : Int) : Int :=
  Int.land (current + alignment - 1) (Int.lnot ((alignment - 1 : Nat) : Int))

/-- The first pass, from array `index` on: the definitions, each with the address that is assumed
for it. -/
def declare : Nat → Int → List (NpArray × Option Int) →
    Except PreloadError (List (Definition × Int))
  | _, _, [] => .ok []
  | index, current, (array, request) :: rest =>
    match array.dtype.toC with
    | none => .error (.dtype array.dtype)
    | some cType =>
      match request with
      | none =>
        let address := autoAddress current
        (declare (index + 1) (address + array.nbytes) rest).map
          ((⟨cType, index, array.size⟩, address) :: ·)
      | some address =>
        if address % alignment ≠ 0 then .error (.unaligned address)
        else
          (declare (index + 1) (address + array.nbytes) rest).map
            ((⟨cType, index, array.size⟩, address) :: ·)

/-- The second pass, from array `index` on. -/
def linkScript : Nat → Int → List (NpArray × Option Int) → List LinkCommand
  | _, _, [] => []
  | index, current, (array, request) :: rest =>
    let address := request.getD (autoAddress current)
    .dot address :: .output index :: linkScript (index + 1) (address + array.nbytes) rest

/-- The two files, and the addresses that the first pass assumed. -/
structure Files where
  definitions : List Definition
  assumed : List Int
  script : List LinkCommand

/-- `start_addresses`, with its default; addresses are not negative. -/
def requests (arrays : List NpArray) (starts : Option (List (Option Nat))) : List (Option Int) :=
  (starts.getD (List.replicate arrays.length none)).map (Option.map Int.ofNat)

/-- `make_preload_elf` -/
def makePreloadElf (arrays : List NpArray) (starts : Option (List (Option Nat))) :
    Except PreloadError Files :=
  let starts := requests arrays starts
  if arrays.length ≠ starts.length then .error .lengths
  else
    (declare 0 defaultAddress (arrays.zip starts)).map fun declared =>
      ⟨declared.map Prod.fst, declared.map Prod.snd,
        linkScript 0 defaultAddress (arrays.zip starts)⟩

/-! ## The layout -/

/-- Where a script places the sections, given the sizes of their contents. -/
def link (size : Nat → Nat) : Int → List LinkCommand → List (Nat × Int)
  | _, [] => []
  | _, .dot address :: rest => link size address rest
  | dot, .output index :: rest => (index, dot) :: link size (dot + size index) rest

/-- An array with what was requested for it and where its section is placed. -/
structure Placement where
  request : Option Int
  nbytes : Nat
  address : Int
  deriving DecidableEq, Repr

namespace Files

variable (e : Files)

/-- The size of a section in `array.o`. -/
def sectionSize (index : Nat) : Nat :=
  (e.definitions[index]?).elim 0 fun d => d.elements * sizeOfC d.cType

/-- The sections of the image in the order of the list. -/
def placements (requests : List (Option Int)) : List Placement :=
  requests.zipWith (fun request placed => ⟨request, e.sectionSize placed.1, placed.2⟩)
    (link e.sectionSize 0 e.script)

/-- What the image is to be: every array is placed, at the address that is requested, if there is
one, else at an aligned one where it overlaps no array before it; and the first pass assumed the
same addresses. -/
structure LaidOut (arrays : List NpArray) (requests : List (Option Int)) : Prop where
  complete : (e.placements requests).map (·.nbytes) = arrays.map NpArray.nbytes
  requested : ∀ p ∈ e.placements requests, ∀ a, p.request = some a → p.address = a
  aligned : ∀ p ∈ e.placements requests, p.request = none → p.address % 64 = 0
  apart : (e.placements requests).Pairwise fun p q =>
    q.request = none → ¬ Meet p.address p.nbytes q.address q.nbytes
  assumed : (e.placements requests).map (·.address) = e.assumed

end Files

/-! ## Runs -/

/-- An array with a requested address, if it is not the first run, and the automatic arrays that
follow it. -/
structure Run where
  base : Int
  first : Option Nat
  autos : List Nat
  deriving DecidableEq, Repr

/-- The sizes of the automatic arrays before the first requested address, and the runs from there
on. -/
def splitRuns : List (Nat × Option Int) → List Nat × List Run
  | [] => ([], [])
  | (n, none) :: rest => (n :: (splitRuns rest).1, (splitRuns rest).2)
  | (n, some a) :: rest => ([], ⟨a, some n, (splitRuns rest).1⟩ :: (splitRuns rest).2)

/-- The runs of a list of sizes with what is requested for them. -/
def runs (items : List (Nat × Option Int)) : List Run :=
  ⟨defaultAddress, none, (splitRuns items).1⟩ :: (splitRuns items).2

namespace Run

variable (r : Run)

/-- What a run fills, its arrays rounded up to 64 bytes. -/
def size : Nat := extent 64 (r.first.toList ++ r.autos)

/-- Where the automatic arrays of a run begin. -/
def autoBase : Int := r.base + extent 64 r.first.toList

/-- The part of a run that its automatic arrays fill meets what another run fills. -/
def Hits (r' : Run) : Prop := Meet r'.base r'.size r.autoBase (extent 64 r.autos)

end Run

instance (r r' : Run) : Decidable (r.Hits r') := inferInstanceAs (Decidable (Meet _ _ _ _))

/-- The automatic arrays of no run meet an earlier run. -/
def RunsApart (rs : List Run) : Prop := rs.Pairwise fun r r' => ¬ r'.Hits r

instance (rs : List Run) : Decidable (RunsApart rs) := inferInstanceAs (Decidable (rs.Pairwise _))

section

variable {items : List (NpArray × Option Int)} {arrays : List NpArray}

/-! ## Addresses -/

theorem autoAddress_eq (current : Int) : autoAddress current = (current + 63) / 64 * 64 := by
  have cleared := land_lnot_eq 6 (current + alignment - 1)
  have sum : current + alignment - 1 = current + 63 := by
    unfold alignment
    omega
  unfold autoAddress
  rw [sum] at cleared ⊢
  exact cleared

theorem autoAddress_dvd (current : Int) : (64 : Int) ∣ autoAddress current := by
  rw [autoAddress_eq]
  exact Int.dvd_mul_left _ _

/-- Behind an array at an aligned address the next one follows its size rounded up. -/
theorem autoAddress_add {start : Int} (aligned : (64 : Int) ∣ start) (n : Nat) :
    autoAddress (start + n) = start + roundUp 64 n := by
  obtain ⟨q, rfl⟩ := aligned
  rw [autoAddress_eq]
  unfold roundUp
  omega

theorem sizeOfC_toC {dtype : DType} {cType : String} (supported : dtype.toC = some cType) :
    sizeOfC cType = dtype.itemsize := by
  cases dtype with
  | other => cases supported
  | _ =>
    obtain rfl := Option.some.inj supported
    rfl

/-! ## The passes -/

/-- The sizes of the arrays with what is requested. -/
def sizes (items : List (NpArray × Option Int)) : List (Nat × Option Int) :=
  items.map fun item => (item.1.nbytes, item.2)

/-- The placements that both passes compute. -/
def layout : Int → List (Nat × Option Int) → List Placement
  | _, [] => []
  | current, (n, request) :: rest =>
    let address := request.getD (autoAddress current)
    ⟨request, n, address⟩ :: layout (address + n) rest

/-- The definition of an array of a supported type. -/
def define (array : NpArray) (index : Nat) : Definition :=
  ⟨array.dtype.toC.getD "", index, array.size⟩

theorem layout_nbytes (current : Int) (items : List (Nat × Option Int)) :
    (layout current items).map (·.nbytes) = items.map Prod.fst := by
  induction items generalizing current with
  | nil => rfl
  | cons item items ih => exact congrArg (item.1 :: ·) (ih _)

theorem layout_request (current : Int) (items : List (Nat × Option Int)) :
    (layout current items).map (·.request) = items.map Prod.snd := by
  induction items generalizing current with
  | nil => rfl
  | cons item items ih => exact congrArg (item.2 :: ·) (ih _)

/-- The first pass succeeds for supported types and aligned addresses. -/
theorem declare_spec (supported : ∀ item ∈ items, item.1.dtype.toC.isSome)
    (aligned : ∀ item ∈ items, ∀ a, item.2 = some a → a % alignment = 0) (index : Nat)
    (current : Int) :
    ∃ declared, declare index current items = .ok declared ∧
      declared.map Prod.fst = ((items.map Prod.fst).zipIdx index).map (fun x => define x.1 x.2) ∧
      declared.map Prod.snd = (layout current (sizes items)).map (·.address) := by
  induction items generalizing index current with
  | nil => exact ⟨[], rfl, rfl, rfl⟩
  | cons item items ih =>
    obtain ⟨array, request⟩ := item
    obtain ⟨cType, known⟩ := Option.isSome_iff_exists.mp (supported _ List.mem_cons_self)
    dsimp only at known
    have named : define array index = ⟨cType, index, array.size⟩ := by
      unfold define
      rw [known]
      rfl
    obtain ⟨declared, pass, definitions, addresses⟩ := ih
      (fun item mem => supported item (List.mem_cons_of_mem _ mem))
      (fun item mem => aligned item (List.mem_cons_of_mem _ mem)) (index + 1)
      (request.getD (autoAddress current) + array.nbytes)
    refine ⟨(define array index, request.getD (autoAddress current)) :: declared, ?_,
      congrArg (define array index :: ·) definitions,
      congrArg (request.getD (autoAddress current) :: ·) addresses⟩
    unfold declare
    rw [known, named]
    cases request with
    | none =>
      dsimp only [Option.getD_none] at pass ⊢
      rw [pass]
      rfl
    | some address =>
      have multiple : ¬ address % alignment ≠ 0 :=
        fun off => off (aligned _ List.mem_cons_self address rfl)
      dsimp only [Option.getD_some] at pass ⊢
      rw [if_neg multiple, pass]
      rfl

/-- The second pass, linked. -/
theorem link_linkScript (items : List (NpArray × Option Int)) (size : Nat → Nat) (dot : Int)
    (index : Nat) (current : Int) :
    link size dot (linkScript index current items) =
      (((layout current (sizes items)).map (·.address)).zipIdx index).map Prod.swap := by
  induction items generalizing dot index current with
  | nil => rfl
  | cons item items ih =>
      exact congrArg ((index, item.2.getD (autoAddress current)) :: ·) (ih _ _ _)

/-! ## The image -/

variable {reqs : List (Option Int)}

/-- The image of supported arrays at aligned addresses. -/
def image (arrays : List NpArray) (reqs : List (Option Int)) : Files where
  definitions := (arrays.zipIdx).map fun x => define x.1 x.2
  assumed := (layout defaultAddress (sizes (arrays.zip reqs))).map (·.address)
  script := linkScript 0 defaultAddress (arrays.zip reqs)

theorem makePreloadElf_eq {starts : Option (List (Option Nat))}
    (same : arrays.length = (requests arrays starts).length)
    (supported : ∀ array ∈ arrays, array.dtype.toC.isSome)
    (aligned : ∀ a, some a ∈ requests arrays starts → a % alignment = 0) :
    makePreloadElf arrays starts = .ok (image arrays (requests arrays starts)) := by
  have known : ∀ item ∈ arrays.zip (requests arrays starts), item.1.dtype.toC.isSome :=
    fun item mem =>
    supported _ (List.of_mem_zip mem).1
  have multiple : ∀ item ∈ arrays.zip (requests arrays starts), ∀ a, item.2 = some a →
      a % alignment = 0 :=
    fun item mem a request => aligned a (request ▸ (List.of_mem_zip mem).2)
  obtain ⟨declared, pass, definitions, addresses⟩ := declare_spec known multiple 0 defaultAddress
  rw [List.map_fst_zip (Nat.le_of_eq same)] at definitions
  unfold makePreloadElf image
  dsimp only
  rw [if_neg (not_not.mpr same), pass, ← definitions, ← addresses]
  rfl

theorem sectionSize_image (supported : ∀ array ∈ arrays, array.dtype.toC.isSome) {i : Nat}
    (less : i < arrays.length) :
    (image arrays reqs).sectionSize i = arrays[i].nbytes := by
  obtain ⟨cType, known⟩ := Option.isSome_iff_exists.mp (supported _ (List.getElem_mem less))
  have defined : (image arrays reqs).definitions[i]? = some (define arrays[i] i) := by
    unfold image
    rw [List.getElem?_map, List.getElem?_zipIdx, List.getElem?_eq_getElem less, Nat.zero_add]
    rfl
  have size : sizeOfC ((define arrays[i] i).cType) = arrays[i].dtype.itemsize := by
    unfold define
    rw [known]
    exact sizeOfC_toC known
  unfold Files.sectionSize NpArray.nbytes
  rw [defined, Option.elim_some, size]
  rfl

theorem sizes_nbytes (same : arrays.length = reqs.length) :
    (sizes (arrays.zip reqs)).map Prod.fst = arrays.map NpArray.nbytes := by
  have arrays' : (arrays.zip reqs).map Prod.fst = arrays := List.map_fst_zip (Nat.le_of_eq same)
  have first := congrArg (List.map NpArray.nbytes) arrays'
  rw [List.map_map] at first
  unfold sizes
  rw [List.map_map]
  exact first

theorem sizes_request (same : arrays.length = reqs.length) :
    (sizes (arrays.zip reqs)).map Prod.snd = reqs := by
  unfold sizes
  rw [List.map_map]
  exact List.map_snd_zip (Nat.le_of_eq same.symm)

/-- Placements by their requests, the sizes of their sections and their addresses. -/
theorem zipWith_placements (size : Nat → Nat) (ps : List Placement) (index : Nat)
    (sized : ∀ i (less : i < ps.length), size (index + i) = ps[i].nbytes) :
    (ps.map (·.request)).zipWith (fun request placed => ⟨request, size placed.1, placed.2⟩)
      (((ps.map (·.address)).zipIdx index).map Prod.swap) = ps := by
  induction ps generalizing index with
  | nil => rfl
  | cons p ps ih =>
    have first : size index = p.nbytes := sized 0 (Nat.succ_pos _)
    have rest := ih (index + 1) fun i less => by
      have later := sized (i + 1) (Nat.succ_lt_succ less)
      rw [Nat.add_right_comm]
      exact later
    have head : (⟨p.request, size index, p.address⟩ : Placement) = p := by rw [first]
    calc _ = (⟨p.request, size index, p.address⟩ : Placement) :: _ := rfl
      _ = p :: ps := by rw [head, rest]

/-- The sections are placed where both passes say. -/
theorem placements_image (same : arrays.length = reqs.length)
    (supported : ∀ array ∈ arrays, array.dtype.toC.isSome) :
    (image arrays reqs).placements reqs = layout defaultAddress (sizes (arrays.zip reqs)) := by
  have nbytes := (layout_nbytes defaultAddress (sizes (arrays.zip reqs))).trans (sizes_nbytes same)
  have request :=
    (layout_request defaultAddress (sizes (arrays.zip reqs))).trans (sizes_request same)
  have linked :=
    link_linkScript (arrays.zip reqs) (image arrays reqs).sectionSize 0 0 defaultAddress
  unfold Files.placements
  have script : (image arrays reqs).script = linkScript 0 defaultAddress (arrays.zip reqs) := rfl
  rw [script, linked]
  generalize layout defaultAddress (sizes (arrays.zip reqs)) = ps at nbytes request
  rw [← request]
  apply zipWith_placements
  intro i less
  have less' : i < arrays.length := by
    have lengths := congrArg List.length nbytes
    rw [List.length_map, List.length_map] at lengths
    omega
  have size := congrArg (·[i]?) nbytes
  rw [List.getElem?_map, List.getElem?_map, List.getElem?_eq_getElem less,
    List.getElem?_eq_getElem less'] at size
  rw [Nat.zero_add, sectionSize_image supported less']
  exact (Option.some.inj size).symm

/-! ## Runs of arrays -/

/-- The placements of packed automatic arrays. -/
def autoPlacements (start : Int) (autos : List Nat) : List Placement :=
  (pack 64 start autos).map fun p => ⟨none, p.2, p.1⟩

/-- The placements of a run. -/
def Run.placements (r : Run) : List Placement :=
  r.first.toList.map (fun n => ⟨some r.base, n, r.base⟩) ++ autoPlacements r.autoBase r.autos

theorem layout_runs (list : List (Nat × Option Int))
    (aligned : ∀ item ∈ list, ∀ a, item.2 = some a → (64 : Int) ∣ a) (current : Int) :
    layout current list =
      autoPlacements (autoAddress current) (splitRuns list).1 ++
        (splitRuns list).2.flatMap Run.placements := by
  induction list generalizing current with
  | nil => rfl
  | cons item list ih =>
    obtain ⟨n, request⟩ := item
    have later :=
      fun address => ih (fun item mem => aligned item (List.mem_cons_of_mem _ mem)) (address + n)
    cases request with
    | none =>
      have first := autoAddress_dvd current
      unfold layout splitRuns
      dsimp only [Option.getD_none]
      rw [later, autoAddress_add first]
      rfl
    | some address =>
      have first := aligned _ List.mem_cons_self address rfl
      have behind : (Run.mk address (some n) (splitRuns list).1).autoBase =
          address + roundUp 64 n := by
        unfold Run.autoBase
        dsimp only [Option.toList_some]
        rw [extent_cons]
        rfl
      unfold layout splitRuns
      dsimp only [Option.getD_some]
      rw [later, autoAddress_add first, List.flatMap_cons]
      unfold Run.placements
      rw [behind]
      rfl

theorem defaultAddress_dvd : (64 : Int) ∣ defaultAddress := by decide

theorem splitRuns_dvd {list : List (Nat × Option Int)}
    (aligned : ∀ item ∈ list, ∀ a, item.2 = some a → (64 : Int) ∣ a) {r : Run}
    (mem : r ∈ (splitRuns list).2) :
    (64 : Int) ∣ r.base := by
  induction list with
  | nil => cases mem
  | cons item list ih =>
    have later := ih fun item mem => aligned item (List.mem_cons_of_mem _ mem)
    obtain ⟨n, request⟩ := item
    cases request with
    | none => exact later mem
    | some address =>
      rcases List.mem_cons.mp mem with rfl | after
      · exact aligned _ List.mem_cons_self _ rfl
      · exact later after

theorem runs_dvd {list : List (Nat × Option Int)}
    (aligned : ∀ item ∈ list, ∀ a, item.2 = some a → (64 : Int) ∣ a) {r : Run}
    (mem : r ∈ runs list) : (64 : Int) ∣ r.base := by
  rcases List.mem_cons.mp mem with rfl | later
  · exact defaultAddress_dvd
  · exact splitRuns_dvd aligned later

/-- The layout is that of the runs, one after the other. -/
theorem layout_eq_runs {list : List (Nat × Option Int)}
    (aligned : ∀ item ∈ list, ∀ a, item.2 = some a → (64 : Int) ∣ a) :
    layout defaultAddress list = (runs list).flatMap Run.placements := by
  have start := autoAddress_add defaultAddress_dvd 0
  have none : roundUp 64 0 = 0 := roundUp_of_dvd (by decide) (Nat.dvd_zero _)
  rw [none, Nat.cast_zero, Int.add_zero] at start
  rw [layout_runs list aligned, start]
  unfold runs Run.placements Run.autoBase
  rw [List.flatMap_cons]
  exact congrArg (· ++ _) (congrArg (autoPlacements · _) (Int.add_zero defaultAddress).symm)

/-- The ranges of a run are packed from its address on. -/
theorem placements_pack (r : Run) : r.placements.map (fun p => (p.address, p.nbytes)) =
    pack 64 r.base (r.first.toList ++ r.autos) := by
  rw [pack_append]
  unfold Run.placements autoPlacements Run.autoBase
  rw [List.map_append, List.map_map, List.map_map]
  apply congrArg₂
  · cases r.first with
    | none => rfl
    | some n => rfl
  · exact List.map_id _

/-- The arrays of a run do not overlap. -/
theorem run_pairwise {r : Run} (aligned : (64 : Int) ∣ r.base) :
    r.placements.Pairwise fun p q => ¬ Meet p.address p.nbytes q.address q.nbytes := by
  have packed := pack_pairwise 64 (r.first.toList ++ r.autos) (by decide) aligned
  rw [← placements_pack, List.pairwise_map] at packed
  exact packed

/-- The automatic arrays of a run overlap an array of another one exactly if they meet what it
fills. -/
theorem run_apart_iff {r r' : Run} (aligned : (64 : Int) ∣ r.base)
    (aligned' : (64 : Int) ∣ r'.base) :
    (∀ p ∈ r.placements, ∀ q ∈ r'.placements, q.request = none →
      ¬ Meet p.address p.nbytes q.address q.nbytes) ↔ ¬ r'.Hits r := by
  have autos : (64 : Int) ∣ r'.autoBase :=
    Int.dvd_add aligned' (Int.natCast_dvd_natCast.mpr (dvd_extent 64 _))
  have meet := pack_meet_pack_iff 64 (r.first.toList ++ r.autos) r'.autos (by decide) aligned autos
  unfold Run.Hits Run.size
  rw [← meet, ← placements_pack]
  constructor
  · rintro apart ⟨_, mem, q, mem', both⟩
    obtain ⟨p, placed, rfl⟩ := List.mem_map.mp mem
    have automatic : (⟨none, q.2, q.1⟩ : Placement) ∈ r'.placements :=
      List.mem_append_right _ (List.mem_map.mpr ⟨q, mem', rfl⟩)
    exact apart p placed _ automatic rfl both
  · intro apart p mem q mem' automatic both
    rcases List.mem_append.mp mem' with requested | packed
    · obtain ⟨n, -, rfl⟩ := List.mem_map.mp requested
      cases automatic
    · obtain ⟨x, range, rfl⟩ := List.mem_map.mp packed
      exact apart ⟨_, List.mem_map.mpr ⟨p, mem, rfl⟩, x, range, both⟩

/-- The automatic arrays of a layout overlap no earlier array exactly if those of a run meet no
earlier run. -/
theorem layout_apart_iff {list : List (Nat × Option Int)}
    (aligned : ∀ item ∈ list, ∀ a, item.2 = some a → (64 : Int) ∣ a) :
    ((layout defaultAddress list).Pairwise fun p q =>
      q.request = none → ¬ Meet p.address p.nbytes q.address q.nbytes) ↔ RunsApart (runs list) := by
  rw [layout_eq_runs aligned, List.pairwise_flatMap]
  have within : ∀ r ∈ runs list, r.placements.Pairwise fun p q =>
      q.request = none → ¬ Meet p.address p.nbytes q.address q.nbytes := fun r mem =>
    (run_pairwise (runs_dvd aligned mem)).imp fun {_ q} apart (_ : q.request = none) => apart
  have across : ∀ {r r' : Run}, r ∈ runs list → r' ∈ runs list → _ := fun mem mem' =>
    run_apart_iff (runs_dvd aligned mem) (runs_dvd aligned mem')
  unfold RunsApart
  rw [List.Pairwise.iff_of_mem across]
  exact and_iff_right within

theorem layout_requested {current : Int} {list : List (Nat × Option Int)} {p : Placement}
    (mem : p ∈ layout current list) :
    (∀ a, p.request = some a → p.address = a) ∧ (p.request = none → (64 : Int) ∣ p.address) := by
  induction list generalizing current with
  | nil => cases mem
  | cons item list ih =>
    rcases List.mem_cons.mp mem with rfl | later
    · constructor
      · intro a request
        dsimp only at request ⊢
        rw [request]
        rfl
      · intro request
        dsimp only at request ⊢
        rw [request]
        exact autoAddress_dvd current
    · exact ih later

/-- Arrays of supported types at aligned addresses make an image, and it is laid out exactly if the
automatic arrays of no run meet an earlier run. -/
theorem laidOut_iff (starts : Option (List (Option Nat)))
    (same : arrays.length = (requests arrays starts).length)
    (supported : ∀ array ∈ arrays, array.dtype.toC.isSome)
    (aligned : ∀ a, some a ∈ requests arrays starts → a % 64 = 0) :
    ∃ e, makePreloadElf arrays starts = .ok e ∧ (e.LaidOut arrays (requests arrays starts) ↔
      RunsApart (runs ((arrays.map NpArray.nbytes).zip (requests arrays starts)))) := by
  refine ⟨_, makePreloadElf_eq same supported aligned, ?_⟩
  have placements := placements_image same supported
  have multiple : ∀ item ∈ sizes (arrays.zip (requests arrays starts)), ∀ a, item.2 = some a →
      (64 : Int) ∣ a := by
    intro item mem a request
    obtain ⟨x, zipped, rfl⟩ := List.mem_map.mp mem
    exact Int.dvd_of_emod_eq_zero (aligned a (request ▸ (List.of_mem_zip zipped).2))
  have zipped : sizes (arrays.zip (requests arrays starts)) =
      (arrays.map NpArray.nbytes).zip (requests arrays starts) := by
    rw [List.zip_map_left]
    rfl
  rw [← zipped, ← layout_apart_iff multiple, ← placements]
  constructor
  · exact fun laidOut => laidOut.apart
  · intro apart
    refine ⟨?_, ?_, ?_, apart, ?_⟩
    · rw [placements, layout_nbytes, sizes_nbytes same]
    · intro p mem
      rw [placements] at mem
      exact (layout_requested mem).1
    · intro p mem request
      rw [placements] at mem
      exact Int.emod_eq_zero_of_dvd ((layout_requested mem).2 request)
    · rw [placements]
      rfl

end

/-! ## Two images -/

/-- 16 words, which fill 64 bytes. -/
def line : NpArray := ⟨.int32, 16⟩

/-- Arrays behind a requested address, and one in front of it. -/
theorem laidOut_default : ∃ e,
    makePreloadElf [line, ⟨.int8, 3⟩, line] (some [none, some 0xc0001000, none]) = .ok e ∧
      e.LaidOut [line, ⟨.int8, 3⟩, line] [none, some 0xc0001000, none] := by
  have aligned : ∀ a,
      some a ∈ requests [line, ⟨.int8, 3⟩, line] (some [none, some 0xc0001000, none]) →
        a % 64 = 0 := by
    intro a mem
    have address : a = 0xc0001000 := by simpa [requests] using mem
    rw [address]
    rfl
  obtain ⟨e, made, laidOut⟩ := laidOut_iff _ rfl (by decide) aligned
  exact ⟨e, made, laidOut.mpr (by decide)⟩

/-- The cursor goes back below the first array, and the third one is placed on it. -/
theorem third_on_first : ∃ e, makePreloadElf [line, line, line]
    (some [none, some 0xbfffffc0, none]) = .ok e ∧
    (e.placements [none, some 0xbfffffc0, none]).map (·.address) =
      [0xc0000000, 0xbfffffc0, 0xc0000000] ∧
      ¬ e.LaidOut [line, line, line] [none, some 0xbfffffc0, none] := by
  have supported : ∀ array ∈ [line, line, line], array.dtype.toC.isSome := by decide
  have made : makePreloadElf [line, line, line] (some [none, some 0xbfffffc0, none]) =
      .ok (image [line, line, line] [none, some 0xbfffffc0, none]) := by
    apply makePreloadElf_eq rfl supported
    intro a mem
    have address : a = 0xbfffffc0 := by simpa [requests] using mem
    rw [address]
    rfl
  have placements : (image [line, line, line] [none, some 0xbfffffc0, none]).placements
      [none, some 0xbfffffc0, none] =
        [⟨none, 64, 0xc0000000⟩, ⟨some 0xbfffffc0, 64, 0xbfffffc0⟩, ⟨none, 64, 0xc0000000⟩] := by
    rw [placements_image rfl supported]
    simp [layout, sizes, autoAddress_eq, defaultAddress, line, NpArray.nbytes, DType.itemsize]
  refine ⟨_, made, by rw [placements]; rfl, fun laidOut => ?_⟩
  have apart := laidOut.apart
  rw [placements] at apart
  have overlap := List.pairwise_iff_getElem.mp apart 0 2 (by decide) (by decide) (by decide) rfl
  exact overlap ⟨0xc0000000, by decide, by decide⟩

end SoftHier.Preload
