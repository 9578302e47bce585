import CWebServer.ArenaSound
import CWebServer.Lib.LittleEndian
import CWebServer.Lib.Links
import CWebServer.Lib.Traces

/-!
# The managed allocator

Each allocation pushes an entry with its block behind it. Of the entry only
`prev` is written, so that the list is well formed exactly where the memory
held the other fields before. Pointers are addresses and 0 is `NULL`; `base` is
the address of `arena->memory`.
-/

namespace CWebServer

open LittleEndian (readWord writeWord)

def sizeOfMallocEntry : Nat := 32

def sizeOfManagedAlloc : Nat := 40

/-! ## Entries -/

section
variable (memory : Nat → UInt8) (off : Nat)

def entryPrev : Nat := readWord memory off

def entryNext : Nat := readWord memory (off + 8)

/-- A bit field of one bit. -/
def entryActive : Bool := memory (off + 16) &&& 1 == 1

def entrySize : Nat := readWord memory (off + 24)

def setPrev (prev : Nat) : Nat → UInt8 := writeWord memory off prev

def setActive : Nat → UInt8 := Memory.write memory (off + 16) [memory (off + 16) ||| 1]

end

/-- The fields of the allocator, which no entry overlaps. -/
structure ManagedAlloc where
  arena : Arena
  first : Nat
  last : Nat
  firstHole : Nat
  largestHole : Nat

def memMakeManagedAlloc (arena : Arena) : Option ManagedAlloc :=
  match memArenaPush arena sizeOfManagedAlloc with
  | (some off, arena) => some {
      arena := { arena with memory := Memory.write arena.memory off (List.replicate sizeOfManagedAlloc 0) }
      first := 0
      last := 0
      firstHole := 0
      largestHole := 0 }
  | (none, _) => none

/-- The offset of an address; `none` in front of the arena. -/
def offsetOf (base ptr : Nat) : Option Nat := if base ≤ ptr then some (ptr - base) else none

/-- The loop over the entries from a hole on, for at most as many turns. -/
def findHole (base : Nat) (memory : Nat → UInt8) (size : Nat) : Nat → Nat → Option (Option Nat)
  | 0, _ => none
  | turns + 1, allocation =>
    if allocation = 0 then some none
    else do
      let off ← offsetOf base allocation
      if entryActive memory off then findHole base memory size turns (entryNext memory off)
      else if size ≤ entrySize memory off then some (some off)
      else findHole base memory size turns (entryNext memory off)

def nextHole (base : Nat) (memory : Nat → UInt8) : Nat → Nat → Option Nat
  | 0, _ => none
  | turns + 1, firstHole =>
    if firstHole = 0 then some 0
    else do
      let off ← offsetOf base firstHole
      if entryActive memory off then nextHole base memory turns (entryNext memory off) else some firstHole

/-- The pointer and the allocator behind the call; `none` for a fault or a loop of more than `turns` turns. -/
def memManagedAlloc (base turns : Nat) (malloc : ManagedAlloc) (size : Nat) : Option (Nat × ManagedAlloc) := do
  let hole ←
    if malloc.firstHole ≠ 0 then findHole base malloc.arena.memory size turns malloc.firstHole else some none
  match hole with
  | some off => do
    let memory := setActive malloc.arena.memory off
    let holeOff ← offsetOf base malloc.firstHole
    let firstHole ←
      if entryActive memory holeOff then nextHole base memory turns malloc.firstHole else some malloc.firstHole
    some (base + off + sizeOfMallocEntry, { malloc with arena := { malloc.arena with memory }, firstHole })
  | none =>
    match memArenaPush malloc.arena (wrap64 (sizeOfMallocEntry + size)) with
    | (some off, arena) =>
      let allocation := base + off
      let memory := setPrev arena.memory off 0
      let first := if malloc.first = 0 then allocation else malloc.first
      let memory := setPrev memory off malloc.last
      some (allocation + sizeOfMallocEntry,
        { malloc with arena := { arena with memory }, first, last := allocation })
    | (none, _) => none

/-! ## The list of entries -/

def pointer (ptr : Nat) : Option Nat := if ptr = 0 then none else some ptr

/-- The list from `first` to `last` has these entries, each active and with room for the size beside it. -/
structure EntryList (base : Nat) (malloc : ManagedAlloc) (entries : List (Nat × Nat)) : Prop where
  chain : Links.Chain (fun a => pointer (entryNext malloc.arena.memory (a - base)))
    (fun a => pointer (entryPrev malloc.arena.memory (a - base))) (pointer malloc.first) (pointer malloc.last)
    (entries.map Prod.fst)
  active : ∀ e ∈ entries, entryActive malloc.arena.memory (e.1 - base) = true
  size : ∀ e ∈ entries, e.2 ≤ entrySize malloc.arena.memory (e.1 - base)

/-- Allocations of these sizes from a new allocator; an entry stands in front of the block that is returned. -/
def KeepsEntries (base turns : Nat) (arena : Arena) (sizes : List Nat) : Prop :=
  ∃ start ptrs malloc, memMakeManagedAlloc arena = some start ∧
    Traces.trace (memManagedAlloc base turns) start sizes = some (ptrs, malloc) ∧
    EntryList base malloc ((ptrs.map (· - sizeOfMallocEntry)).zip sizes)

/-- The offsets at which pushes place the entries from `start` on, with the sizes of their blocks. -/
def entryPlaces (arena : Arena) (start : Nat) : List Nat → List (Nat × Nat)
  | [] => []
  | size :: sizes => (start, size) :: entryPlaces arena (start + takenBytes arena (sizeOfMallocEntry + size)) sizes

/-- The offset behind the entries. -/
def entriesEnd (arena : Arena) (start : Nat) : List Nat → Nat
  | [] => start
  | size :: sizes => entriesEnd arena (start + takenBytes arena (sizeOfMallocEntry + size)) sizes

def firstPlace (arena : Arena) : Nat := arena.pos - sizeOfArena + takenBytes arena sizeOfManagedAlloc

/-- At the place of each entry the memory already holds the fields that are not written. -/
def StaleFits (base : Nat) (memory : Nat → UInt8) (places : List (Nat × Nat)) : Prop :=
  ∀ done off size rest, places = done ++ (off, size) :: rest →
    entryNext memory off = rest.head?.elim 0 (fun place => base + place.1) ∧ entryActive memory off = true ∧
      size ≤ entrySize memory off

/-! ## One allocation -/

/-- Entries at the offsets `offs`, and the next place at `start`; `stale` is the memory before, from `lo` on. -/
structure Allocated (base : Nat) (arena : Arena) (lo : Nat) (malloc : ManagedAlloc) (offs : List Nat) (start : Nat) :
    Prop where
  alignment : malloc.arena.alignment = arena.alignment
  record : malloc.arena.unsafeRecord = arena.unsafeRecord
  cap : malloc.arena.cap = arena.cap
  pos : malloc.arena.pos = sizeOfArena + start
  hole : malloc.firstHole = 0
  first : pointer malloc.first = (offs.map (base + ·)).head?
  last : pointer malloc.last = (offs.map (base + ·)).getLast?
  lo_le : lo ≤ start
  between : ∀ off ∈ offs, lo ≤ off ∧ off + sizeOfMallocEntry ≤ start
  apart : offs.Pairwise fun a b => a + sizeOfMallocEntry ≤ b
  prevs : ∀ done off rest, offs = done ++ off :: rest →
    pointer (entryPrev malloc.arena.memory off) = (done.map (base + ·)).getLast?
  stale : ∀ i, lo ≤ i → (∀ off ∈ offs, off + 8 ≤ i ∨ i < off) → malloc.arena.memory i = arena.memory i

theorem pointer_of_pos {ptr : Nat} (h : 0 < ptr) : pointer ptr = some ptr := if_neg (Nat.ne_of_gt h)

theorem pointer_some {ptr a : Nat} (h : pointer ptr = some a) : ptr = a := by
  unfold pointer at h
  split at h
  · cases h
  · exact Option.some.inj h

theorem pointer_eq_iff {base ptr : Nat} (hbase : 0 < base) (place : Option Nat) :
    pointer ptr = place.map (base + ·) ↔ ptr = place.elim 0 (base + ·) := by
  unfold pointer
  cases place with
  | none =>
    rw [Option.map_none, Option.elim_none]
    by_cases hz : ptr = 0
    · simp [hz]
    · simp [hz]
  | some off =>
    rw [Option.map_some, Option.elim_some]
    by_cases hz : ptr = 0
    · rw [if_pos hz, hz]
      exact iff_of_false (by simp) (by omega)
    · rw [if_neg hz, Option.some.injEq]

theorem takenBytes_congr {a b : Arena} (halign : a.alignment = b.alignment) (hrec : a.unsafeRecord = b.unsafeRecord)
    (size : Nat) : takenBytes a size = takenBytes b size := by
  unfold takenBytes
  rw [halign, hrec]

section
variable {base lo start turns k : Nat} {arena : Arena} {malloc : ManagedAlloc} {offs : List Nat}
  (hk : k ≤ 30) (ha : arena.alignment = 2 ^ k) (hbase : 0 < base) (hcap : base + arena.cap ≤ 2 ^ 64)

include hcap in
theorem Allocated.last_lt (h : Allocated base arena lo malloc offs start) (hstart : sizeOfArena + start ≤ arena.cap) :
    malloc.last < 2 ^ 64 := by
  cases hlast : (offs.map (base + ·)).getLast? with
  | none =>
    have hzero := h.last.trans hlast
    unfold pointer at hzero
    split at hzero
    · rename_i hz
      rw [hz]
      exact Nat.two_pow_pos 64
    · cases hzero
  | some a =>
    have ha := pointer_some (h.last.trans hlast)
    obtain ⟨off, hoff, rfl⟩ := List.mem_map.mp (List.mem_of_getLast? hlast)
    have := (h.between off hoff).2
    unfold sizeOfMallocEntry at this
    unfold sizeOfArena at hstart
    rw [ha]
    omega

theorem managedAlloc_push {arena' : Arena} {off size : Nat} (hhole : malloc.firstHole = 0)
    (hpush : memArenaPush malloc.arena (wrap64 (sizeOfMallocEntry + size)) = (some off, arena')) :
    memManagedAlloc base turns malloc size = some (base + off + sizeOfMallocEntry,
      { malloc with
        arena := { arena' with memory := setPrev (setPrev arena'.memory off 0) off malloc.last }
        first := if malloc.first = 0 then base + off else malloc.first
        last := base + off }) := by
  unfold memManagedAlloc
  rw [if_neg (not_not_intro hhole)]
  simp only [Option.bind_eq_bind, Option.bind_some, hpush]

/-- Both writes to the `prev` field of a new entry at `start` -/
theorem setPrev_twice (memory : Nat → UInt8) (start : Nat) {last : Nat} (hlast : last < 2 ^ 64) :
    entryPrev (setPrev (setPrev memory start 0) start last) start = last ∧
      (∀ off, off + sizeOfMallocEntry ≤ start →
        entryPrev (setPrev (setPrev memory start 0) start last) off = entryPrev memory off) ∧
      ∀ i, start + 8 ≤ i ∨ i < start → setPrev (setPrev memory start 0) start last i = memory i := by
  refine ⟨LittleEndian.readWord_writeWord _ start hlast, fun off hoff => ?_, fun i hi => ?_⟩
  · unfold sizeOfMallocEntry at hoff
    exact (LittleEndian.readWord_apart _ _ (by omega)).trans (LittleEndian.readWord_apart _ _ (by omega))
  · exact (LittleEndian.writeWord_apart _ _ hi).trans (LittleEndian.writeWord_apart _ _ hi)

/-- The entry that is put behind the others points back to the last of them. -/
theorem Allocated.prevs_concat (h : Allocated base arena lo malloc offs start) {memory : Nat → UInt8}
    (hown : entryPrev memory start = malloc.last)
    (hprev : ∀ off, off + sizeOfMallocEntry ≤ start → entryPrev memory off = entryPrev malloc.arena.memory off)
    (done : List Nat) (off : Nat) (rest : List Nat) (heq : offs ++ [start] = done ++ off :: rest) :
    pointer (entryPrev memory off) = (done.map (base + ·)).getLast? := by
  rcases List.eq_nil_or_concat rest with rfl | ⟨rest', last, rfl⟩
  · obtain ⟨rfl, hsingle⟩ := List.append_inj' heq rfl
    cases hsingle
    rw [← h.last]
    exact congrArg pointer hown
  · rw [List.concat_eq_append, ← List.cons_append, ← List.append_assoc] at heq
    obtain ⟨hoffs, -⟩ := List.append_inj' heq rfl
    have hmem : off ∈ offs := by
      rw [hoffs]
      exact List.mem_append_right _ List.mem_cons_self
    rw [← h.prevs done off rest' hoffs]
    exact congrArg pointer (hprev off (h.between off hmem).2)

include hbase in
theorem Allocated.first_concat (h : Allocated base arena lo malloc offs start) :
    pointer (if malloc.first = 0 then base + start else malloc.first) = ((offs ++ [start]).map (base + ·)).head? := by
  have hfirst := h.first
  rw [List.map_append, List.head?_append, ← hfirst]
  by_cases hz : malloc.first = 0
  · rw [if_pos hz, pointer_of_pos (by omega), hz]
    rfl
  · rw [if_neg hz, pointer_of_pos (Nat.pos_of_ne_zero hz)]
    rfl

include hk ha hbase hcap in
theorem Allocated.step (h : Allocated base arena lo malloc offs start) (turns size : Nat)
    (hroom : sizeOfArena + start + takenBytes arena (sizeOfMallocEntry + size) ≤ arena.cap) :
    ∃ malloc', memManagedAlloc base turns malloc size = some (base + start + sizeOfMallocEntry, malloc') ∧
      Allocated base arena lo malloc' (offs ++ [start])
        (start + takenBytes arena (sizeOfMallocEntry + size)) := by
  have htaken := takenBytes_congr h.alignment h.record (sizeOfMallocEntry + size)
  have hge := le_takenBytes arena (sizeOfMallocEntry + size)
  have hwrap : wrap64 (sizeOfMallocEntry + size) = sizeOfMallocEntry + size := by
    rw [← Int.natCast_add]
    exact wrap64_of_lt (by omega)
  have hpos : sizeOfArena ≤ malloc.arena.pos := by
    rw [h.pos]
    exact Nat.le_add_right _ _
  have hpush := memArenaPush_room (sizeOfMallocEntry + size) hk (h.alignment.trans ha) hpos
    (by rw [h.cap]; omega) (by rw [h.pos, htaken, h.cap]; omega)
  rw [← hwrap, h.pos, Nat.add_sub_cancel_left] at hpush
  obtain ⟨hown, hprev, hrest⟩ := setPrev_twice malloc.arena.memory start (h.last_lt hcap (by omega))
  refine ⟨_, managedAlloc_push h.hole hpush, h.alignment, h.record, h.cap, ?_, h.hole, h.first_concat hbase, ?_,
    Nat.le_trans h.lo_le (Nat.le_add_right _ _), ?_, ?_, h.prevs_concat hown hprev, ?_⟩
  · show sizeOfArena + start + takenBytes malloc.arena (wrap64 (sizeOfMallocEntry + size)) = _
    rw [hwrap, htaken, Nat.add_assoc]
  · rw [List.map_append, List.map_singleton, List.getLast?_concat]
    show pointer (base + start) = some (base + start)
    exact pointer_of_pos (by omega)
  · intro off hoff
    rcases List.mem_append.mp hoff with hoff | hoff
    · have := h.between off hoff
      omega
    · rw [List.mem_singleton.mp hoff]
      exact ⟨h.lo_le, by omega⟩
  · apply List.pairwise_append.mpr
    refine ⟨h.apart, List.pairwise_singleton _ _, ?_⟩
    intro off hoff b hb
    rw [List.mem_singleton.mp hb]
    exact (h.between off hoff).2
  · intro i hi hapart
    rw [← h.stale i hi fun off hoff => hapart off (List.mem_append_left _ hoff)]
    exact hrest i (hapart start (List.mem_append_right _ List.mem_cons_self))

/-! ## A run of allocations -/

theorem le_entriesEnd (arena : Arena) (start : Nat) (sizes : List Nat) : start ≤ entriesEnd arena start sizes := by
  induction sizes generalizing start with
  | nil => exact Nat.le_refl start
  | cons size sizes ih => exact Nat.le_trans (Nat.le_add_right _ _) (ih _)

include hk ha hbase hcap in
theorem Allocated.run (h : Allocated base arena lo malloc offs start) (turns : Nat) {sizes : List Nat}
    (hroom : sizeOfArena + entriesEnd arena start sizes ≤ arena.cap) :
    ∃ ptrs malloc', Traces.trace (memManagedAlloc base turns) malloc sizes = some (ptrs, malloc') ∧
      (ptrs.map (· - sizeOfMallocEntry)).zip sizes =
        (entryPlaces arena start sizes).map (fun place => (base + place.1, place.2)) ∧
      Allocated base arena lo malloc' (offs ++ (entryPlaces arena start sizes).map Prod.fst)
        (entriesEnd arena start sizes) := by
  induction sizes generalizing malloc offs start with
  | nil =>
    refine ⟨[], malloc, rfl, rfl, ?_⟩
    rw [entryPlaces, List.map_nil, List.append_nil]
    exact h
  | cons size sizes ih =>
    rw [entriesEnd] at hroom
    have hend := le_entriesEnd arena (start + takenBytes arena (sizeOfMallocEntry + size)) sizes
    obtain ⟨malloc₁, hcall, h₁⟩ := h.step hk ha hbase hcap turns size (by omega)
    obtain ⟨ptrs, malloc', htrace, hzip, h'⟩ := ih h₁ hroom
    refine ⟨(base + start + sizeOfMallocEntry) :: ptrs, malloc', ?_, ?_, ?_⟩
    · rw [Traces.trace_cons hcall, htrace]
      rfl
    · rw [entryPlaces, List.map_cons, List.zip_cons_cons, hzip, Nat.add_sub_cancel, List.map_cons]
    · rw [List.append_assoc, List.singleton_append] at h'
      exact h'

include hk ha hbase hcap in
theorem allocated_new (hpos : sizeOfArena ≤ arena.pos) (hroom : sizeOfArena + firstPlace arena ≤ arena.cap) :
    ∃ malloc, memMakeManagedAlloc arena = some malloc ∧
      Allocated base arena (firstPlace arena) malloc [] (firstPlace arena) := by
  have hge := le_takenBytes arena sizeOfManagedAlloc
  unfold firstPlace at hroom ⊢
  have hpush := memArenaPush_room sizeOfManagedAlloc hk ha hpos (by omega) (by omega)
  have hlen : (List.replicate sizeOfManagedAlloc (0 : UInt8)).length = sizeOfManagedAlloc := List.length_replicate
  unfold memMakeManagedAlloc
  rw [hpush]
  generalize List.replicate sizeOfManagedAlloc (0 : UInt8) = zeros at hlen
  refine ⟨_, rfl, rfl, rfl, rfl, ?_, rfl, rfl, rfl, Nat.le_refl _, ?_, .nil, ?_, ?_⟩
  · dsimp only
    omega
  · intro off hoff
    cases hoff
  · intro done off rest heq
    exact absurd heq.symm (List.append_ne_nil_of_right_ne_nil done (List.cons_ne_nil _ _))
  · intro i hi _
    have hapart : arena.pos - sizeOfArena + zeros.length ≤ i ∨ i < arena.pos - sizeOfArena := by
      rw [hlen]
      omega
    have hwrite := Memory.write_apart arena.memory hapart
    dsimp only
    exact hwrite

/-! ## The fields that are not written -/

theorem Allocated.trichotomy (h : Allocated base arena lo malloc offs start) {a b : Nat} (ha : a ∈ offs)
    (hb : b ∈ offs) : a = b ∨ a + sizeOfMallocEntry ≤ b ∨ b + sizeOfMallocEntry ≤ a :=
  List.Pairwise.forall_of_forall_of_flip
    (R := fun a b => a = b ∨ a + sizeOfMallocEntry ≤ b ∨ b + sizeOfMallocEntry ≤ a) (fun _ _ => Or.inl rfl)
    (h.apart.imp fun hle => Or.inr (Or.inl hle)) (h.apart.imp fun hle => Or.inr (Or.inr hle)) ha hb

theorem Allocated.field (h : Allocated base arena lo malloc offs start) {off i : Nat} (hoff : off ∈ offs)
    (hi : off + 8 ≤ i) (hi' : i < off + sizeOfMallocEntry) : malloc.arena.memory i = arena.memory i := by
  refine h.stale i (by have := (h.between off hoff).1; omega) fun off' hoff' => ?_
  unfold sizeOfMallocEntry at hi'
  rcases h.trichotomy hoff hoff' with heq | hle | hge
  · omega
  · unfold sizeOfMallocEntry at hle
    omega
  · unfold sizeOfMallocEntry at hge
    omega

theorem Allocated.fields (h : Allocated base arena lo malloc offs start) {off : Nat} (hoff : off ∈ offs) :
    entryNext malloc.arena.memory off = entryNext arena.memory off ∧
      entryActive malloc.arena.memory off = entryActive arena.memory off ∧
      entrySize malloc.arena.memory off = entrySize arena.memory off := by
  have hread : ∀ j, 8 ≤ j → j + 8 ≤ sizeOfMallocEntry →
      readWord malloc.arena.memory (off + j) = readWord arena.memory (off + j) := by
    intro j hj hj'
    apply congrArg LittleEndian.value
    apply List.map_congr_left
    intro i hi
    rw [List.mem_range] at hi
    exact h.field hoff (by omega) (by omega)
  refine ⟨hread 8 (Nat.le_refl 8) (by decide), ?_, hread 24 (by decide) (Nat.le_refl 32)⟩
  unfold entryActive
  rw [h.field hoff (Nat.add_le_add_left (by decide) off) (Nat.add_lt_add_left (by decide) off)]

section
variable {places : List (Nat × Nat)} (h : Allocated base arena lo malloc (places.map Prod.fst) start)

include hbase h in
theorem Allocated.next_iff {done rest : List (Nat × Nat)} {off size : Nat}
    (heq : places = done ++ (off, size) :: rest) :
    pointer (entryNext malloc.arena.memory off) = ((rest.map Prod.fst).map (base + ·)).head? ↔
      entryNext arena.memory off = rest.head?.elim 0 fun place => base + place.1 := by
  have hmem : off ∈ places.map Prod.fst := by
    rw [heq]
    simp
  rw [(h.fields hmem).1, List.head?_map, pointer_eq_iff hbase, List.head?_map]
  cases rest.head? with
  | none => rfl
  | some place => rfl

include hbase h in
/-- The entries are a chain iff the `next` fields, which are not written, lead along them. -/
theorem Allocated.chain_iff :
    Links.Chain (fun a => pointer (entryNext malloc.arena.memory (a - base)))
        (fun a => pointer (entryPrev malloc.arena.memory (a - base))) (pointer malloc.first) (pointer malloc.last)
        ((places.map Prod.fst).map (base + ·)) ↔
      ∀ done off size rest, places = done ++ (off, size) :: rest →
        entryNext arena.memory off = rest.head?.elim 0 fun place => base + place.1 := by
  constructor
  · intro hchain done off size rest heq
    have hsplit := (Links.seg_iff.mp (Links.chain_iff.mp hchain).seg ((done.map Prod.fst).map (base + ·)) (base + off)
      ((rest.map Prod.fst).map (base + ·)) (by rw [heq]; simp)).2
    rw [Nat.add_sub_cancel_left, Option.or_none] at hsplit
    exact (h.next_iff hbase heq).mp hsplit
  · intro hnext
    refine Links.chain_iff.mpr ⟨h.first, h.last, ?_, ?_⟩
    · refine Links.seg_iff.mpr fun done x rest heq => ?_
      obtain ⟨offs₁, offs₂, hoffs, rfl, hcons⟩ := List.map_eq_append_iff.mp heq
      obtain ⟨off, offs₃, rfl, rfl, rfl⟩ := List.map_eq_cons_iff.mp hcons
      have hprev := h.prevs offs₁ off offs₃ hoffs
      obtain ⟨places₁, places₂, hplaces, rfl, hcons'⟩ := List.map_eq_append_iff.mp hoffs
      obtain ⟨⟨off, size⟩, places₃, rfl, rfl, rfl⟩ := List.map_eq_cons_iff.mp hcons'
      rw [Nat.add_sub_cancel_left, Option.or_none, Option.or_none]
      exact ⟨hprev, (h.next_iff hbase hplaces).mpr (hnext places₁ off size places₃ hplaces)⟩
    · refine List.Pairwise.map _ (fun a b hle => ?_) h.apart
      unfold sizeOfMallocEntry at hle
      omega

include hbase h in
/-- The fields that are not written decide whether the list is well formed. -/
theorem Allocated.entryList_iff :
    EntryList base malloc (places.map fun place => (base + place.1, place.2)) ↔ StaleFits base arena.memory places := by
  have haddr : ((places.map fun place => (base + place.1, place.2)).map Prod.fst) =
      (places.map Prod.fst).map (base + ·) := by
    rw [List.map_map, List.map_map]
    rfl
  constructor
  · intro hlist done off size rest heq
    have hplace : (off, size) ∈ places := by
      rw [heq]
      simp
    obtain ⟨-, hactive, hsize⟩ := h.fields (List.mem_map_of_mem hplace)
    have hmem : (base + off, size) ∈ places.map fun place => (base + place.1, place.2) :=
      List.mem_map.mpr ⟨_, hplace, rfl⟩
    have hact := hlist.active _ hmem
    have hsz := hlist.size _ hmem
    rw [Nat.add_sub_cancel_left] at hact hsz
    exact ⟨(h.chain_iff hbase).mp (haddr ▸ hlist.chain) done off size rest heq, hactive ▸ hact, hsize ▸ hsz⟩
  · intro hstale
    refine ⟨haddr ▸ (h.chain_iff hbase).mpr fun done off size rest heq => (hstale done off size rest heq).1, ?_, ?_⟩
    · intro e he
      obtain ⟨⟨off, size⟩, hplace, rfl⟩ := List.mem_map.mp he
      obtain ⟨done, rest, heq⟩ := List.append_of_mem hplace
      obtain ⟨-, hactive, -⟩ := h.fields (List.mem_map_of_mem hplace)
      rw [Nat.add_sub_cancel_left, hactive]
      exact (hstale done off size rest heq).2.1
    · intro e he
      obtain ⟨⟨off, size⟩, hplace, rfl⟩ := List.mem_map.mp he
      obtain ⟨done, rest, heq⟩ := List.append_of_mem hplace
      obtain ⟨-, -, hsize⟩ := h.fields (List.mem_map_of_mem hplace)
      rw [Nat.add_sub_cancel_left, hsize]
      exact (hstale done off size rest heq).2.2

end

end

theorem keepsEntries_iff {base turns k : Nat} {arena : Arena} (hk : k ≤ 30) (ha : arena.alignment = 2 ^ k)
    (hpos : sizeOfArena ≤ arena.pos) (hbase : 0 < base) (hcap : base + arena.cap ≤ 2 ^ 64) {sizes : List Nat}
    (hroom : sizeOfArena + entriesEnd arena (firstPlace arena) sizes ≤ arena.cap) :
    KeepsEntries base turns arena sizes ↔
      StaleFits base arena.memory (entryPlaces arena (firstPlace arena) sizes) := by
  have hend := le_entriesEnd arena (firstPlace arena) sizes
  obtain ⟨start, hmake, hstart⟩ := allocated_new hk ha hbase hcap hpos (by omega)
  obtain ⟨ptrs, malloc, htrace, hzip, hrun⟩ := hstart.run hk ha hbase hcap turns hroom
  rw [← hrun.entryList_iff hbase, ← hzip]
  constructor
  · rintro ⟨start', ptrs', malloc', hmake', htrace', hlist⟩
    rw [hmake] at hmake'
    cases hmake'
    rw [htrace] at htrace'
    cases htrace'
    exact hlist
  · exact fun hlist => ⟨start, ptrs, malloc, hmake, htrace, hlist⟩

/-- Memory that holds the link from an entry of 8 bytes to one of none. -/
def linkedMemory (i : Nat) : UInt8 :=
  if i = 56 then 0x60 else if i = 57 then 0x10 else if i = 64 ∨ i = 112 then 1 else if i = 72 then 8 else 0

/-- Old links, old active bits and old sizes that are enough. -/
theorem keepsEntries_iff_empty : KeepsEntries 4096 0 (memMakeArenaPreAllocated linkedMemory 1024) [8, 0] := by
  refine (keepsEntries_iff (k := 4) (by decide) rfl (by decide) (by decide) (by decide) (by decide)).mpr ?_
  intro done off size rest heq
  have htwo : [(48, 8), (96, 0)] = done ++ (off, size) :: rest := heq
  cases done with
  | nil =>
    obtain ⟨⟨rfl, rfl⟩, rfl⟩ := by simpa using htwo
    exact ⟨by decide, by decide, by decide⟩
  | cons first done =>
    have hlast : [(96, 0)] = done ++ (off, size) :: rest := (List.cons.inj htwo).2
    obtain ⟨rfl, hone⟩ | ⟨-, hone⟩ := List.append_eq_singleton_iff.mp hlast.symm
    · obtain ⟨⟨rfl, rfl⟩, rfl⟩ := by simpa using hone
      exact ⟨by decide, by decide, by decide⟩
    · cases hone

/-- A block of 8 bytes in a memory that is filled with `CC`: the entry is not marked active. -/
theorem not_keepsEntries : ¬ KeepsEntries 4096 0 (memMakeArenaPreAllocated (fun _ => 0xCC) 1024) [8] := by
  rintro ⟨start, ptrs, malloc, hmake, htrace, hlist⟩
  have hcall : ((memMakeManagedAlloc (memMakeArenaPreAllocated (fun _ => 0xCC) 1024)).bind fun start =>
      (Traces.trace (memManagedAlloc 4096 0) start [8]).map fun r => (r.1, entryActive r.2.arena.memory 48)) =
      some ([4096 + 48 + 32], false) := by decide
  rw [hmake, Option.bind_some, htrace, Option.map_some, Option.some.injEq, Prod.mk.injEq] at hcall
  obtain ⟨rfl, hactive⟩ := hcall
  have htrue : entryActive malloc.arena.memory (4096 + 48 - 4096) = true :=
    hlist.active (4096 + 48, 8) List.mem_cons_self
  rw [Nat.add_sub_cancel_left, hactive] at htrue
  cases htrue

end CWebServer
