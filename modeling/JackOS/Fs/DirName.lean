/-
  JackOS.Fs.DirName

  Names in directory entries.  `create_dir_entry` copies up to sixteen
  characters into an array of sixteen bytes, and `search_dir_entry` compares the
  array as a string: the NUL of a name of sixteen characters is the first byte of
  the inode number behind it.
-/

import JackOS.Fs.DirRead
import Mathlib.Data.List.TakeWhile

namespace JackOS
namespace Fs

open Base

/-- A name that `create_dir_entry` takes. -/
structure Accepted (name : List UInt8) : Prop where
  nonempty : name ≠ []
  length_le : name.length ≤ maxFileNameLen
  noNul : 0 ∉ name
  noSlash : slash ∉ name

/-! ## Comparing -/

variable {m m' d : Mem} {off off' lba i : Nat} {str name name' : List UInt8} {de : DirEntry}

/-- The string at `off` is `str`. -/
theorem strEq_iff_bytes : strEq m off str = true
    ↔ (∀ k c, str[k]? = some c → m (off + k) = c) ∧ m (off + str.length) = 0 := by
  induction str generalizing off with
  | nil => simp [strEq]
  | cons c str ih =>
      rw [strEq, Bool.and_eq_true, beq_iff_eq, ih, List.length_cons]
      have hend : off + 1 + str.length = off + (str.length + 1) := by omega
      rw [hend]
      constructor
      · rintro ⟨hc, htail, hnul⟩
        refine ⟨fun k c' hk => ?_, hnul⟩
        cases k with
        | zero =>
            cases hk
            exact hc
        | succ k =>
            rw [← htail k c' hk]
            exact congrArg m (by omega)
      · rintro ⟨hall, hnul⟩
        refine ⟨hall 0 c rfl, fun k c' hk => ?_, hnul⟩
        rw [← hall (k + 1) c' hk]
        exact congrArg m (by omega)

/-- A comparison looks at the characters of the string and at one more. -/
theorem strEq_congr (h : ∀ a, a ≤ str.length → m' (off' + a) = m (off + a)) :
    strEq m' off' str = strEq m off str := by
  rw [Bool.eq_iff_iff, strEq_iff_bytes, strEq_iff_bytes, h _ (Nat.le_refl _)]
  refine and_congr_left' (forall_congr' fun k => forall_congr' fun c => forall_congr' fun hk => ?_)
  rw [h k (List.getElem?_eq_some_iff.1 hk).1.le]

/-- What is compared with a name is the slot's own bytes. -/
theorem HoldsBlock.strEq_slot {buf : Mem} (h : HoldsBlock buf d lba) (hi : i < slotsPerBlock)
    (hlen : str.length ≤ maxFileNameLen) :
    strEq buf (dirEntryBytes * i) str = strEq d (lba * 512 + dirEntryBytes * i) str := by
  refine strEq_congr fun a ha => ?_
  simp only [dirEntryBytes, slotsPerBlock, maxFileNameLen] at *
  rw [h _ (by omega)]
  exact congrArg d (by omega)

/-- A slot that compares equal has the name. -/
theorem name_of_strEq (hname : Accepted name)
    (h : strEq d (lba * 512 + dirEntryBytes * i) name = true) : (slotAt d lba i).name = name := by
  by_cases hlen : name.length < maxFileNameLen
  · rw [strEq_iff_takeWhile hname.noNul hlen] at h
    exact h
  · -- all sixteen bytes are characters of the name
    have hfull : name.length = maxFileNameLen := Nat.le_antisymm hname.length_le (by omega)
    obtain ⟨hbytes, -⟩ := strEq_iff_bytes.1 h
    have hfilename : (slotAt d lba i).filename = name := by
      refine List.ext_getElem? fun k => ?_
      rw [slotAt, DirEntry.entry, List.getElem?_map]
      by_cases hk : k < maxFileNameLen
      · rw [List.getElem?_range hk]
        have hlt : k < name.length := by rw [hfull]; exact hk
        rw [List.getElem?_eq_getElem hlt]
        exact congrArg some (hbytes k _ (List.getElem?_eq_getElem hlt))
      · rw [List.getElem?_eq_none (by rw [List.length_range]; omega),
          List.getElem?_eq_none (by omega)]
        rfl
    rw [Entry.name, hfilename]
    refine List.takeWhile_eq_self_iff.2 fun c hc => ?_
    simpa using fun h : c = 0 => hname.noNul (h ▸ hc)

/-! ## The entry that `create_dir_entry` makes -/

/-- The bytes of the entry are at `off`. -/
def HoldsEntry (m : Mem) (off : Nat) (de : DirEntry) : Prop :=
  ∀ a, a < dirEntryBytes → m (off + a) = de.bytes a

variable {s : FsState} {inodeNo : Nat} {fileType : FileType}

theorem createDirEntry_eq (hname : Accepted name)
    (h : createDirEntry s name inodeNo fileType = .ok de) :
    de = { filename := fun k => name.getD k 0, iNo := inodeNo, fType := fileType.toWord } := by
  have hlen := hname.length_le
  simp only [maxFileNameLen] at hlen
  rw [createDirEntry, kassert_pos hlen, Outcome.ok_bind, if_pos (hlen.trans (by decide))] at h
  exact (Except.ok.inj h).symm

/-- The first byte behind the characters of the name. -/
theorem HoldsEntry.nul_iff (h : HoldsEntry m off de) (hname : Accepted name)
    (hde : createDirEntry s name inodeNo fileType = .ok de) :
    m (off + name.length) = 0 ↔ name.length ≤ 15 ∨ inodeNo % 256 = 0 := by
  have hlen := hname.length_le
  simp only [maxFileNameLen] at hlen
  rw [h _ (Nat.lt_of_le_of_lt hlen (by decide)), createDirEntry_eq hname hde, DirEntry.bytes]
  by_cases hfull : name.length < 16
  · rw [if_pos hfull]
    simp only [List.getD_eq_getElem?_getD]
    rw [List.getElem?_eq_none (Nat.le_refl _)]
    exact iff_of_true rfl (.inl (by omega))
  · -- the lowest byte of `i_no`
    have hsixteen : name.length = 16 := by omega
    rw [if_neg hfull, hsixteen, ← UInt8.toNat_inj]
    rw [Mem.wordBytes_apply _ 4 0 (by decide)]
    simp [DirEntry.word]

/-- The characters of the name. -/
theorem HoldsEntry.char (h : HoldsEntry m off de) (hname : Accepted name)
    (hde : createDirEntry s name inodeNo fileType = .ok de) {k : Nat} {c : UInt8}
    (hk : name[k]? = some c) : m (off + k) = c := by
  have hlen := hname.length_le
  obtain ⟨hlt, rfl⟩ := List.getElem?_eq_some_iff.1 hk
  simp only [maxFileNameLen] at hlen
  rw [h k (by simp only [dirEntryBytes]; omega), createDirEntry_eq hname hde, DirEntry.bytes,
    if_pos (by omega)]
  simp only [List.getD_eq_getElem?_getD, hk, Option.getD_some]

/-- The entry compares equal to its own name if there is a NUL behind it. -/
theorem HoldsEntry.strEq_iff (h : HoldsEntry m off de) (hname : Accepted name)
    (hde : createDirEntry s name inodeNo fileType = .ok de) :
    strEq m off name = true ↔ name.length ≤ 15 ∨ inodeNo % 256 = 0 := by
  rw [strEq_iff_bytes, h.nul_iff hname hde]
  exact and_iff_right fun k c hk => h.char hname hde hk

/-- It compares equal to no other name. -/
theorem HoldsEntry.eq_of_strEq (h : HoldsEntry m off de) (hname : Accepted name)
    (hname' : Accepted name') (hde : createDirEntry s name inodeNo fileType = .ok de)
    (heq : strEq m off name' = true) : name' = name := by
  obtain ⟨hbytes, hnul⟩ := strEq_iff_bytes.1 heq
  -- neither string ends before the other
  have hchar : ∀ (k : Nat) c c', name[k]? = some c → name'[k]? = some c' → c' = c := by
    intro k c c' hk hk'
    rw [← hbytes k c' hk', ← h.char hname hde hk]
  have hle : name.length ≤ name'.length := by
    by_contra hlt
    have hlt : name'.length < name.length := by omega
    have hzero := h.char hname hde (List.getElem?_eq_getElem hlt)
    rw [hnul] at hzero
    exact hname.noNul (hzero ▸ List.getElem_mem hlt)
  have hge : name'.length ≤ name.length := by
    by_contra hlt
    have hlt : name.length < name'.length := by omega
    have hlen' := hname'.length_le
    simp only [maxFileNameLen] at hlen'
    have hzero : m (off + name.length) = 0 := (h.nul_iff hname hde).2 (.inl (by omega))
    rw [hbytes _ _ (List.getElem?_eq_getElem hlt)] at hzero
    exact hname'.noNul (hzero ▸ List.getElem_mem hlt)
  refine List.ext_getElem (Nat.le_antisymm hge hle) fun k hk hk' => ?_
  exact hchar k _ _ (List.getElem?_eq_getElem hk') (List.getElem?_eq_getElem hk)

/-! ## Searching -/

variable {p : Nat} {ino : Inode}

/-- A slot of the directory that compares equal to the name. -/
def Hit (d : Mem) (ino : Inode) (name : List UInt8) (k i : Nat) : Prop :=
  k < 140 ∧ blockRef d ino k ≠ 0 ∧ i < slotsPerBlock
    ∧ strEq d (blockRef d ino k * 512 + dirEntryBytes * i) name = true

/-- The loop over the blocks stops at a slot that compares equal, if there is
    one. -/
theorem searchBlocks_hit {all : Nat → Nat} (left k : Nat) (hall : ∀ j, all j ≤ maxLba)
    (hper : s.dirEntryPerSec = slotsPerBlock) (hlen : name.length ≤ maxFileNameLen) :
    ∃ r, searchBlocks s all name left k = .ok r
      ∧ (∀ found, r = some found → ∃ j i, k ≤ j ∧ j < k + left ∧ all j ≠ 0 ∧ i < slotsPerBlock
        ∧ strEq s.disk (all j * 512 + dirEntryBytes * i) name = true
        ∧ found.entry = slotAt s.disk (all j) i)
      ∧ (r = none → ∀ j i, k ≤ j → j < k + left → all j ≠ 0 → i < slotsPerBlock →
        strEq s.disk (all j * 512 + dirEntryBytes * i) name = false) := by
  induction left generalizing k with
  | zero =>
      refine ⟨none, rfl, fun found h => (by cases h), fun _ j i hlo hhi => ?_⟩
      omega
  | succ left ih =>
      obtain ⟨r, hrest, hsome, hnone⟩ := ih (k + 1)
      rw [searchBlocks]
      by_cases hzero : all k = 0
      · rw [if_pos hzero]
        refine ⟨r, hrest, fun found hr => ?_, fun hr j i hlo hhi hj => ?_⟩
        · obtain ⟨j, i, hlo, hhi, hhit⟩ := hsome found hr
          exact ⟨j, i, by omega, by omega, hhit⟩
        · have hne : j ≠ k := fun h => hj (h ▸ hzero)
          exact hnone hr j i (by omega) (by omega) hj
      · obtain ⟨buf, hread, hbuf⟩ := ideRead_block (s := s) (hall k)
        rw [if_neg hzero, hread, Outcome.ok_bind]
        cases hfound : findName s buf name with
        | some i =>
            rw [findName, hper] at hfound
            have hi := List.mem_range.1 (List.mem_of_find?_eq_some hfound)
            have heq := List.find?_some hfound
            rw [hbuf.strEq_slot hi hlen] at heq
            refine ⟨_, rfl, fun found hr => ?_, fun hr => (by cases hr)⟩
            cases hr
            exact ⟨k, i, Nat.le_refl _, by omega, hzero, hi, heq, hbuf.entry hi⟩
        | none =>
            refine ⟨r, hrest, fun found hr => ?_, fun hr j i hlo hhi hj hi => ?_⟩
            · obtain ⟨j, i, hlo, hhi, hhit⟩ := hsome found hr
              exact ⟨j, i, by omega, by omega, hhit⟩
            · by_cases hjk : j = k
              · subst hjk
                rw [findName, hper, List.find?_eq_none] at hfound
                have hne := hfound i (List.mem_range.2 hi)
                rw [hbuf.strEq_slot hi hlen] at hne
                exact Bool.eq_false_iff.2 hne
              · exact hnone hr j i (by omega) (by omega) hj hi

/-- `search_dir_entry` gives a slot that compares equal, if there is one. -/
theorem searchDirEntry_hit (hsize : s.part.sb.dirEntrySize = dirEntryBytes)
    (hdisk : ∀ j, blockRef s.disk (s.inodes p) j ≤ maxLba) (hlen : name.length ≤ maxFileNameLen) :
    ∃ r, (∀ found, r = some found → ∃ k i, Hit s.disk (s.inodes p) name k i
        ∧ found.entry = slotAt s.disk (blockRef s.disk (s.inodes p) k) i)
      ∧ (r = none → ∀ k i, ¬ Hit s.disk (s.inodes p) name k i)
      ∧ (∀ r' s', searchDirEntry s p name = .ok (r', s') → r' = r)
      ∧ (HeapServes s → ∃ s', searchDirEntry s p name = .ok (r, s')) := by
  obtain ⟨all, hall, href, hread⟩ := allBlocks_eq (s := s.countMalloc) hdisk
  have hper : s.countMalloc.countMalloc.dirEntryPerSec = slotsPerBlock := by
    change blockSize / s.part.sb.dirEntrySize = slotsPerBlock
    rw [hsize]
    rfl
  obtain ⟨r, hsearch, hsome, hnone⟩ := searchBlocks_hit (s := s.countMalloc.countMalloc)
    140 0 hread hper hlen
  have href : ∀ k, k < 140 → all k = blockRef s.disk (s.inodes p) k := href
  refine ⟨r, fun found hr => ?_, fun hr k i hhit => ?_, searchDirEntry_eq hall hsearch⟩
  · obtain ⟨k, i, -, hk, hne, hi, heq, hentry⟩ := hsome found hr
    rw [href k (by omega)] at hne heq hentry
    exact ⟨k, i, ⟨by omega, hne, hi, heq⟩, hentry⟩
  · obtain ⟨hk, hne, hi, heq⟩ := hhit
    rw [← href k hk] at hne heq
    have hfalse := hnone hr k i (Nat.zero_le _) (by omega) hne hi
    exact Bool.false_ne_true (hfalse.symm.trans heq)

/-! ## Round trips -/

/-- Slot `i` of block `k` of the directory holds the entry, and no other slot
    has the name. -/
structure StoredAt (s : FsState) (ino : Inode) (de : DirEntry) (name : List UInt8) (k i : Nat) :
    Prop where
  entrySize : s.part.sb.dirEntrySize = dirEntryBytes
  onDisk : ∀ j, blockRef s.disk ino j ≤ maxLba
  block : k < 140
  there : blockRef s.disk ino k ≠ 0
  slot : i < slotsPerBlock
  holds : HoldsEntry s.disk (blockRef s.disk ino k * 512 + dirEntryBytes * i) de
  only : ∀ k' i', k' < 140 → blockRef s.disk ino k' ≠ 0 → i' < slotsPerBlock →
    (slotAt s.disk (blockRef s.disk ino k') i').name = name → k' = k ∧ i' = i

/-- The entry that is made for the name is found under it, wherever it is
    stored, and under no other name. -/
def RoundTrips (name : List UInt8) (inodeNo : Nat) (fileType : FileType) : Prop :=
  ∀ s p k i de, createDirEntry s name inodeNo fileType = .ok de →
    StoredAt s (s.inodes p) de name k i →
      (∀ r s', searchDirEntry s p name = .ok (r, s') → r.map DirEntry.entry = some de.entry)
      ∧ (HeapServes s → ∃ r s', searchDirEntry s p name = .ok (r, s'))
      ∧ ∀ name', Accepted name' → name' ≠ name → ∀ r s', searchDirEntry s p name' = .ok (r, s') →
        r.map DirEntry.entry ≠ some de.entry

/-- The entry in the slot. -/
theorem StoredAt.slotAt_eq {k : Nat} (h : StoredAt s ino de name k i) (hname : Accepted name)
    (hde : createDirEntry s name inodeNo fileType = .ok de) (hno : inodeNo < 2 ^ 32) :
    slotAt s.disk (blockRef s.disk ino k) i = de.entry := by
  have hrange : de.InRange := by
    rw [createDirEntry_eq hname hde]
    have hword : fileType.toWord < 2 ^ 32 := by
      cases fileType <;> decide
    exact ⟨hno, hword⟩
  rw [← slotAt_putSlot_self (d := s.disk) hrange i]
  refine (slotAt_congr fun a ha => ?_).symm
  rw [putSlot, Mem.copy_inside (by omega) (by omega), h.holds a ha]
  exact congrArg de.bytes (by omega)

/-- A slot that compares equal to the name is the one with the entry. -/
theorem StoredAt.eq_of_hit {k k' i' : Nat} (h : StoredAt s ino de name k i)
    (hname : Accepted name) (hhit : Hit s.disk ino name k' i') : k' = k ∧ i' = i :=
  h.only k' i' hhit.1 hhit.2.1 hhit.2.2.1 (name_of_strEq hname hhit.2.2.2)

/-- The name of the entry is found if there is a NUL behind it. -/
theorem StoredAt.hit_iff {k : Nat} (h : StoredAt s ino de name k i) (hname : Accepted name)
    (hde : createDirEntry s name inodeNo fileType = .ok de) :
    Hit s.disk ino name k i ↔ name.length ≤ 15 ∨ inodeNo % 256 = 0 := by
  rw [← h.holds.strEq_iff hname hde]
  exact ⟨fun hhit => hhit.2.2.2, fun heq => ⟨h.block, h.there, h.slot, heq⟩⟩

/-- Where there is a NUL behind the name, the entry is found. -/
theorem roundTrips_of_nul (hname : Accepted name) (hno : inodeNo < 2 ^ 32)
    (hnul : name.length ≤ 15 ∨ inodeNo % 256 = 0) : RoundTrips name inodeNo fileType := by
  intro s p k i de hde hstored
  have hentry := hstored.slotAt_eq hname hde hno
  obtain ⟨r, hsome, hnone, hresult, hreturns⟩ :=
    searchDirEntry_hit hstored.entrySize hstored.onDisk hname.length_le
  refine ⟨fun r' s' hcall => ?_, fun hheap => ⟨r, hreturns hheap⟩, ?_⟩
  · rw [hresult r' s' hcall]
    cases r with
    | none => exact absurd ((hstored.hit_iff hname hde).2 hnul) (hnone rfl k i)
    | some found =>
        obtain ⟨k', i', hhit, hfound⟩ := hsome found rfl
        obtain ⟨rfl, rfl⟩ := hstored.eq_of_hit hname hhit
        rw [Option.map_some, hfound, hentry]
  · intro name' hname' hne r' s' hcall hsame
    obtain ⟨r, hsome, -, hresult, -⟩ :=
      searchDirEntry_hit hstored.entrySize hstored.onDisk hname'.length_le
    rw [hresult r' s' hcall] at hsame
    cases r with
    | none => cases hsame
    | some found =>
        -- the slot that was found has the entry's name, so that it is the entry
        obtain ⟨k', i', hhit, hfound⟩ := hsome found rfl
        rw [Option.map_some, hfound] at hsame
        have hslot : slotAt s.disk (blockRef s.disk (s.inodes p) k') i'
            = slotAt s.disk (blockRef s.disk (s.inodes p) k) i := by
          rw [hentry]
          exact Option.some.inj hsame
        have hself := (hstored.hit_iff hname hde).2 hnul
        have hname_eq := name_of_strEq hname hself.2.2.2
        rw [← hslot] at hname_eq
        obtain ⟨rfl, rfl⟩ := hstored.only k' i' hhit.1 hhit.2.1 hhit.2.2.1 hname_eq
        exact hne (hstored.holds.eq_of_strEq hname hname' hde hhit.2.2.2)

/-- Where there is none, no directory finds the entry. -/
theorem StoredAt.not_found {k : Nat} (h : StoredAt s (s.inodes p) de name k i)
    (hname : Accepted name) (hde : createDirEntry s name inodeNo fileType = .ok de)
    (hnul : ¬ (name.length ≤ 15 ∨ inodeNo % 256 = 0)) (hheap : HeapServes s) :
    ∃ s', searchDirEntry s p name = .ok (none, s') := by
  obtain ⟨r, hsome, -, -, hreturns⟩ :=
    searchDirEntry_hit h.entrySize h.onDisk hname.length_le
  cases r with
  | none => exact hreturns hheap
  | some found =>
      obtain ⟨k', i', hhit, -⟩ := hsome found rfl
      obtain ⟨rfl, rfl⟩ := h.eq_of_hit hname hhit
      exact absurd ((h.hit_iff hname hde).1 hhit) hnul

/-! ## A directory with one entry -/

def oneEntryInode : Inode :=
  { smallDirInode with iSize := 24, iSectors := fun j => if j = 0 then 613 else 0 }

/-- The entry is in the first slot of the first block. -/
def oneEntryFs (de : DirEntry) : FsState :=
  { smallDirFs with disk := putSlot Mem.zero 613 0 de, inodes := fun _ => oneEntryInode }

theorem oneEntryFs_ref (d : Mem) (j : Nat) :
    blockRef d oneEntryInode j = if j = 0 then 613 else 0 := by
  by_cases hj : j < 12
  · rw [blockRef_direct hj]
    rfl
  · rw [blockRef_noTable (by omega) rfl, if_neg (by omega)]

theorem oneEntryFs_storedAt (de : DirEntry) (hname : Accepted name) :
    StoredAt (oneEntryFs de) oneEntryInode de name 0 0 where
  entrySize := rfl
  onDisk j := by
    rw [oneEntryFs_ref]
    split_ifs <;> decide
  block := by decide
  there := by
    rw [oneEntryFs_ref]
    decide
  slot := by decide
  holds a ha := by
    rw [oneEntryFs_ref, if_pos rfl]
    change putSlot Mem.zero 613 0 de _ = _
    rw [putSlot, Mem.copy_inside (by omega) (by omega)]
    exact congrArg de.bytes (by omega)
  only k' i' _ hk' hi' hsame := by
    rw [oneEntryFs_ref] at hk' hsame
    split_ifs at hk' hsame with hk
    · refine ⟨hk, ?_⟩
      by_contra hne
      -- the other slots are zero
      have hzero : (slotAt (oneEntryFs de).disk 613 i').name = [] := by
        refine name_of_clear fun a ha => ?_
        change putSlot Mem.zero 613 0 de _ = 0
        simp only [dirEntryBytes] at ha ⊢
        rw [putSlot, Mem.copy_outside (by simp only [dirEntryBytes]; omega)]
        rfl
      exact hname.nonempty (hsame.symm.trans hzero)
    · exact absurd rfl hk'

/-- Names round-trip exactly if they have at most fifteen characters, or the
    lowest byte of the inode number is zero. -/
theorem roundTrips_iff (fileType : FileType) (hname : Accepted name) (hno : inodeNo < 2 ^ 32) :
    RoundTrips name inodeNo fileType ↔ name.length ≤ 15 ∨ inodeNo % 256 = 0 := by
  refine ⟨fun h => ?_, roundTrips_of_nul hname hno⟩
  by_contra hnul
  let de : DirEntry :=
    { filename := fun k => name.getD k 0, iNo := inodeNo, fType := fileType.toWord }
  have hde : createDirEntry (oneEntryFs de) name inodeNo fileType = .ok de := by
    have hlen := hname.length_le
    rw [createDirEntry, kassert_pos hlen, Outcome.ok_bind, if_pos (hlen.trans (by decide))]
  have hstored := oneEntryFs_storedAt de hname
  obtain ⟨s', hcall⟩ := StoredAt.not_found (s := oneEntryFs de) (p := 0) hstored hname hde hnul
    (fun _ _ => rfl)
  obtain ⟨hfinds, -, -⟩ := h (oneEntryFs de) 0 0 0 de hde hstored
  cases hfinds none s' hcall

/-- A short name. -/
theorem roundTrips_iff_short : RoundTrips [97, 98] 258 .regular :=
  (roundTrips_iff .regular ⟨by decide, by decide, by decide, by decide⟩ (by decide)).2
    (.inl (by decide))

/-- Sixteen times the letter "a", with inode 1. -/
theorem not_roundTrips_sixteen :
    Accepted (List.replicate 16 97) ∧ ¬ RoundTrips (List.replicate 16 97) 1 .regular := by
  have hname : Accepted (List.replicate 16 97) := ⟨by decide, by decide, by decide, by decide⟩
  refine ⟨hname, fun h => ?_⟩
  let de : DirEntry :=
    { filename := fun k => (List.replicate 16 97).getD k 0, iNo := 1, fType := 1 }
  have hstored := oneEntryFs_storedAt de hname
  have hde : createDirEntry (oneEntryFs de) (List.replicate 16 97) 1 .regular = .ok de := rfl
  obtain ⟨s', hcall⟩ := StoredAt.not_found (s := oneEntryFs de) (p := 0) hstored hname hde
    (by decide) (fun _ _ => rfl)
  obtain ⟨hfinds, -, -⟩ := h (oneEntryFs de) 0 0 0 de hde hstored
  cases hfinds none s' hcall

end Fs
end JackOS
