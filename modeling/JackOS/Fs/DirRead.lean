/-
  JackOS.Fs.DirRead

  Listing a directory and looking a name up in it.  `dir_read` starts at block
  0 in every call and counts live entries up to `dir_pos`; `search_dir_entry`
  compares names.  Both go through the entries in the same order
  (`listing_agrees`).
-/

import JackOS.Fs.Entries
import JackOS.Fs.Frame

namespace JackOS
namespace Fs

open Base

/-- The inner loop of `dir_read`, with `left` slots to go: the slot of the entry
    at `dirPos`, or none here, and `cur_dir_entry_pos`. -/
def readSlots (s : FsState) (dirPos : Nat) (buf : Mem) :
    (left idx cur : Nat) → Outcome (Option Nat × Nat)
  | 0, _, cur => .ok (none, cur)
  | left + 1, idx, cur =>
      if (DirEntry.ofBytes buf (dirEntryBytes * idx)).fType = FileType.unknow.toWord then
        readSlots s dirPos buf left (idx + 1) cur
      else if cur < dirPos then
        readSlots s dirPos buf left (idx + 1) (u32 (cur + s.part.sb.dirEntrySize))
      else do
        kassert s (cur = dirPos)
        .ok (some idx, cur)

/-- The outer loop of `dir_read`, with `left` entries of `all_blocks_lba` to go.
    It has no bound of its own and would read on behind the array. -/
def readBlocks (s : FsState) (dirPos : Nat) (all : Nat → Nat) :
    (left blockIdx cur : Nat) → Outcome DirEntry
  | 0, _, _ => .error .undefined
  | left + 1, blockIdx, cur =>
      if all blockIdx = 0 then readBlocks s dirPos all left (blockIdx + 1) cur
      else do
        let buf ← ideRead s (all blockIdx) Mem.zero 0 1
        let (found, cur) ← readSlots s dirPos buf s.dirEntryPerSec 0 cur
        match found with
        | some i => .ok (DirEntry.ofBytes buf (dirEntryBytes * i))
        | none => readBlocks s dirPos all left (blockIdx + 1) cur

/-- `dir_read`, which is all of `sys_readdir`. -/
def dirRead (s : FsState) (dir : Dir) : Outcome (Option DirEntry × Dir) := do
  let all ← allBlocks s (s.inodes dir.inode)
  if dir.dirPos < (s.inodes dir.inode).iSize then
    let de ← readBlocks s dir.dirPos all 140 0 0
    .ok (some de, { dir with dirPos := u32 (dir.dirPos + s.part.sb.dirEntrySize) })
  else .ok (none, dir)

/-- `sys_rewinddir` -/
def sysRewinddir (dir : Dir) : Dir := { dir with dirPos := 0 }

/-- What `n` calls of `dir_read` in a row return. -/
def dirReads (s : FsState) : (n : Nat) → Dir → Outcome (List (Option DirEntry) × Dir)
  | 0, dir => .ok ([], dir)
  | n + 1, dir => do
      let (de, dir) ← dirRead s dir
      let (des, dir) ← dirReads s n dir
      .ok (de :: des, dir)

variable {s : FsState} {ino : Inode} {lba : Nat}

/-! ## Reading -/

/-- The live entries of the slots from `idx` on. -/
def slotsFrom (d : Mem) (lba idx left : Nat) : List Entry :=
  (List.range' idx left).filterMap (slotEntry d lba)

/-- The live entries of the blocks from `k` on. -/
def entriesFrom (d : Mem) (all : Nat → Nat) (k left : Nat) : List Entry :=
  (List.range' k left).flatMap fun j => blockEntries d (all j)

theorem blockEntries_eq_slotsFrom {d : Mem} (h : lba ≠ 0) :
    blockEntries d lba = slotsFrom d lba 0 slotsPerBlock := by
  rw [blockEntries, if_neg h, slotsFrom, List.range_eq_range']

/-- The entry that is `n` live entries away, if the block has it; else the
    position moves past the block. -/
theorem readSlots_spec {buf : Mem} {dirPos left idx cur n : Nat}
    (hbuf : HoldsBlock buf s.disk lba) (hsize : s.part.sb.dirEntrySize = dirEntryBytes)
    (hpos : dirPos = cur + dirEntryBytes * n) (hlt : dirPos < 2 ^ 32)
    (hidx : idx + left ≤ slotsPerBlock) :
    (∃ i c, i < slotsPerBlock ∧ readSlots s dirPos buf left idx cur = .ok (some i, c)
        ∧ (slotsFrom s.disk lba idx left)[n]? = some (slotAt s.disk lba i))
      ∨ (slotsFrom s.disk lba idx left).length ≤ n
        ∧ readSlots s dirPos buf left idx cur
          = .ok (none, cur + dirEntryBytes * (slotsFrom s.disk lba idx left).length) := by
  induction left generalizing idx cur n with
  | zero => exact .inr ⟨Nat.zero_le n, rfl⟩
  | succ left ih =>
      have hi : idx < slotsPerBlock := by omega
      rw [readSlots, hbuf.fType hi]
      by_cases hdead : (slotAt s.disk lba idx).fType = FileType.unknow.toWord
      · -- a free slot
        have hskip : slotsFrom s.disk lba idx (left + 1) = slotsFrom s.disk lba (idx + 1) left := by
          rw [slotsFrom, List.range'_succ, List.filterMap_cons_none (by rw [slotEntry, if_pos hdead])]
          rfl
        rw [if_pos hdead, hskip]
        exact ih hpos (by omega)
      · have hcons : slotsFrom s.disk lba idx (left + 1)
            = slotAt s.disk lba idx :: slotsFrom s.disk lba (idx + 1) left := by
          rw [slotsFrom, List.range'_succ, List.filterMap_cons_some (by rw [slotEntry, if_neg hdead])]
          rfl
        rw [if_neg hdead, hcons]
        cases n with
        | zero =>
            -- the one that is wanted
            have hcur : cur = dirPos := by omega
            refine .inl ⟨idx, cur, hi, ?_, rfl⟩
            rw [if_neg (by omega), kassert_pos hcur]
            rfl
        | succ n =>
            -- one that was returned before
            have hnext : u32 (cur + s.part.sb.dirEntrySize) = cur + dirEntryBytes := by
              rw [hsize]
              exact u32_of_lt (by simp only [dirEntryBytes] at *; omega)
            rw [if_pos (by simp only [dirEntryBytes] at *; omega), hnext]
            have hpos' : dirPos = cur + dirEntryBytes + dirEntryBytes * n := by
              rw [hpos, Nat.mul_succ]
              omega
            have hidx' : idx + 1 + left ≤ slotsPerBlock := by omega
            rcases ih hpos' hidx' with
              ⟨i, c, hi', hread, hget⟩ | ⟨hlen, hread⟩
            · exact .inl ⟨i, c, hi', hread, by rw [List.getElem?_cons_succ, hget]⟩
            · refine .inr ⟨by rw [List.length_cons]; omega, ?_⟩
              rw [hread, List.length_cons, Nat.mul_succ, Nat.add_assoc, Nat.add_comm dirEntryBytes]

/-- The loop over the blocks finds the entry that is `n` live entries away. -/
theorem readBlocks_spec {all : Nat → Nat} {dirPos left k cur n : Nat} {e : Entry}
    (hall : ∀ j, all j ≤ maxLba) (hsize : s.part.sb.dirEntrySize = dirEntryBytes)
    (hpos : dirPos = cur + dirEntryBytes * n) (hlt : dirPos < 2 ^ 32)
    (hget : (entriesFrom s.disk all k left)[n]? = some e) :
    ∃ de, readBlocks s dirPos all left k cur = .ok de ∧ de.entry = e := by
  have hper : s.dirEntryPerSec = slotsPerBlock := by
    rw [FsState.dirEntryPerSec, hsize]
    rfl
  induction left generalizing k cur n with
  | zero =>
      rw [entriesFrom, List.range'_zero, List.flatMap_nil] at hget
      cases hget
  | succ left ih =>
      have hcons : entriesFrom s.disk all k (left + 1)
          = blockEntries s.disk (all k) ++ entriesFrom s.disk all (k + 1) left := by
        rw [entriesFrom, List.range'_succ, List.flatMap_cons]
        rfl
      rw [hcons] at hget
      rw [readBlocks]
      by_cases hzero : all k = 0
      · rw [blockEntries, if_pos hzero, List.nil_append] at hget
        rw [if_pos hzero]
        exact ih hpos hget
      · obtain ⟨buf, hread, hbuf⟩ := ideRead_block (s := s) (hall k)
        rw [blockEntries_eq_slotsFrom hzero] at hget
        rw [if_neg hzero, hread, Outcome.ok_bind, hper]
        have hslots : 0 + slotsPerBlock ≤ slotsPerBlock := by omega
        rcases readSlots_spec hbuf hsize hpos hlt hslots with
          ⟨i, c, hi, hslots, hgot⟩ | ⟨hlen, hslots⟩
        · -- in this block
          refine ⟨DirEntry.ofBytes buf (dirEntryBytes * i), by rw [hslots]; rfl, ?_⟩
          have hn := (List.getElem?_eq_some_iff.1 hgot).1
          rw [List.getElem?_append_left hn, hgot] at hget
          rw [hbuf.entry hi]
          exact Option.some.inj hget
        · -- behind it
          rw [List.getElem?_append_right hlen] at hget
          rw [hslots, Outcome.ok_bind]
          refine ih ?_ hget
          rw [hpos, Nat.add_assoc, ← Nat.mul_add, Nat.add_sub_cancel' hlen]

/-! ## One call, and all calls -/

theorem entriesFrom_eq {all : Nat → Nat} {d : Mem}
    (h : ∀ k, k < 140 → all k = blockRef d ino k) : entriesFrom d all 0 140 = dirEntries d ino := by
  rw [entriesFrom, dirEntries, List.range_eq_range']
  refine List.flatMap_congr fun k hk => ?_
  rw [h k (by have := List.mem_range'_1.1 hk; omega)]

/-- The call that finds `n` entries before it returns the next one, or NULL
    behind the last. -/
theorem dirRead_spec {dir : Dir} {n : Nat} (h : DirRep s (s.inodes dir.inode))
    (hpos : dir.dirPos = dirEntryBytes * min n (dirEntries s.disk (s.inodes dir.inode)).length) :
    ∃ de dir', dirRead s dir = .ok (de, dir')
      ∧ de.map DirEntry.entry = (dirEntries s.disk (s.inodes dir.inode))[n]?
      ∧ dir' = { dir with dirPos :=
          dirEntryBytes * min (n + 1) (dirEntries s.disk (s.inodes dir.inode)).length } := by
  obtain ⟨all, hall, href, hdisk⟩ := allBlocks_eq h.onDisk
  have hsize := h.size
  have hlt := h.iSize_lt
  rw [dirRead, hall, Outcome.ok_bind]
  by_cases hn : n < (dirEntries s.disk (s.inodes dir.inode)).length
  · have hlen : min n (dirEntries s.disk (s.inodes dir.inode)).length = n := Nat.min_eq_left (by omega)
    rw [hlen] at hpos
    have hmul : dirEntryBytes * (n + 1) ≤ (s.inodes dir.inode).iSize := by
      rw [hsize]
      exact Nat.mul_le_mul_left _ hn
    have hin : dir.dirPos < (s.inodes dir.inode).iSize := by
      rw [hpos]
      simp only [dirEntryBytes] at *
      omega
    have hget : (entriesFrom s.disk all 0 140)[n]?
        = some (dirEntries s.disk (s.inodes dir.inode))[n] := by
      rw [entriesFrom_eq href, List.getElem?_eq_getElem hn]
    have hfrom : dir.dirPos = 0 + dirEntryBytes * n := by rw [hpos, Nat.zero_add]
    obtain ⟨de, hread, hde⟩ :=
      readBlocks_spec hdisk h.entrySize hfrom (Nat.lt_trans hin hlt) hget
    refine ⟨some de, _, by rw [if_pos hin, hread]; rfl, ?_, ?_⟩
    · rw [Option.map_some, hde, List.getElem?_eq_getElem hn]
    · rw [Nat.min_eq_left hn, h.entrySize, hpos, u32_of_lt]
      · rfl
      · simp only [dirEntryBytes] at *
        omega
  · have hlen : min n (dirEntries s.disk (s.inodes dir.inode)).length
        = (dirEntries s.disk (s.inodes dir.inode)).length := Nat.min_eq_right (by omega)
    rw [hlen, ← hsize] at hpos
    refine ⟨none, dir, by rw [if_neg (by omega)], ?_, ?_⟩
    · rw [List.getElem?_eq_none (by omega)]
      rfl
    · rw [Nat.min_eq_right (by omega), ← hsize, ← hpos]

/-- Calls in a row go through the entries in order. -/
theorem dirReads_spec {dir : Dir} {n m : Nat} (h : DirRep s (s.inodes dir.inode))
    (hpos : dir.dirPos = dirEntryBytes * min n (dirEntries s.disk (s.inodes dir.inode)).length) :
    ∃ des dir', dirReads s m dir = .ok (des, dir')
      ∧ des.map (Option.map DirEntry.entry)
        = (List.range' n m).map fun i => (dirEntries s.disk (s.inodes dir.inode))[i]? := by
  induction m generalizing n dir with
  | zero => exact ⟨[], dir, rfl, rfl⟩
  | succ m ih =>
      obtain ⟨de, dir₁, hread, hde, hdir⟩ := dirRead_spec h hpos
      have hino : dir₁.inode = dir.inode := by rw [hdir]
      have hpos₁ : dir₁.dirPos
          = dirEntryBytes * min (n + 1) (dirEntries s.disk (s.inodes dir₁.inode)).length := by
        rw [hdir]
      rw [← hino] at h hde ⊢
      obtain ⟨des, dir', hreads, hdes⟩ := ih h hpos₁
      refine ⟨de :: des, dir', ?_, ?_⟩
      · rw [dirReads, hread, Outcome.ok_bind]
        simp only
        rw [hreads]
        rfl
      · rw [List.map_cons, hde, hdes, List.range'_succ, List.map_cons]

/-! ## Looking a name up -/

/-- A name a file can have: not empty, at most fifteen characters, no NUL. -/
structure IsName (name : List UInt8) : Prop where
  nonempty : name ≠ []
  length_lt : name.length < maxFileNameLen
  noNul : 0 ∉ name

/-- A slot of zeros has the empty name. -/
theorem name_of_clear {d : Mem} {i : Nat}
    (h : ∀ a, a < dirEntryBytes → d (lba * 512 + dirEntryBytes * i + a) = 0) :
    (slotAt d lba i).name = [] := by
  have h0 := h 0 (by decide)
  rw [Nat.add_zero] at h0
  simp only [Entry.name, slotAt, DirEntry.entry, DirEntry.ofBytes]
  rw [List.range_succ_eq_map, List.map_cons, Nat.add_zero, h0]
  exact List.takeWhile_cons_of_neg (by simp)

/-- A search in one block finds its first live entry with the name. -/
theorem findName_spec {buf : Mem} {name : List UInt8} (hbuf : HoldsBlock buf s.disk lba)
    (hper : s.dirEntryPerSec = slotsPerBlock) (hlba : lba ≠ 0) (hname : IsName name)
    (hclear : ∀ i, i < slotsPerBlock → slotEntry s.disk lba i = none →
      ∀ a, a < dirEntryBytes → s.disk (lba * 512 + dirEntryBytes * i + a) = 0) :
    (findName s buf name).map (fun i => (DirEntry.ofBytes buf (dirEntryBytes * i)).entry)
      = (blockEntries s.disk lba).find? fun e => e.name = name := by
  have htest : ∀ i ∈ List.range slotsPerBlock, strEq buf (dirEntryBytes * i) name
      = (slotEntry s.disk lba i).any fun e => e.name = name := by
    intro i hi
    have hi := List.mem_range.1 hi
    have heq : strEq buf (dirEntryBytes * i) name = decide ((slotAt s.disk lba i).name = name) := by
      rw [Bool.eq_iff_iff, hbuf.strEq_iff hi hname.noNul hname.length_lt, decide_eq_true_eq]
    rw [heq]
    cases hslot : slotEntry s.disk lba i with
    | none =>
        rw [name_of_clear (hclear i hi hslot)]
        exact decide_eq_false hname.nonempty.symm
    | some e =>
        unfold slotEntry at hslot
        split at hslot
        · cases hslot
        · cases hslot
          rfl
  rw [findName, hper, find?_eq_of_mem htest, blockEntries, if_neg hlba, List.find?_filterMap]
  cases hfind : (List.range slotsPerBlock).find? fun i =>
      (slotEntry s.disk lba i).any fun e => e.name = name with
  | none => rfl
  | some i =>
      have hi := List.mem_range.1 (List.mem_of_find?_eq_some hfind)
      have hany := List.find?_some hfind
      rw [Option.map_some, Option.bind_some, hbuf.entry hi]
      unfold slotEntry at hany ⊢
      split
      · rw [if_pos ‹_›] at hany
        cases hany
      · rfl

/-- The loop over the blocks finds the first live entry with the name. -/
theorem searchBlocks_spec {all : Nat → Nat} {name : List UInt8} {left k : Nat}
    (hall : ∀ j, all j ≤ maxLba) (hper : s.dirEntryPerSec = slotsPerBlock) (hname : IsName name)
    (hclear : ∀ j, k ≤ j → j < k + left → all j ≠ 0 → ∀ i, i < slotsPerBlock →
      slotEntry s.disk (all j) i = none →
        ∀ a, a < dirEntryBytes → s.disk (all j * 512 + dirEntryBytes * i + a) = 0) :
    ∃ r, searchBlocks s all name left k = .ok r
      ∧ r.map DirEntry.entry = (entriesFrom s.disk all k left).find? fun e => e.name = name := by
  induction left generalizing k with
  | zero => exact ⟨none, rfl, rfl⟩
  | succ left ih =>
      obtain ⟨r, hrest, hr⟩ := ih (k := k + 1) fun j hkj hj => hclear j (by omega) (by omega)
      have hcons : entriesFrom s.disk all k (left + 1)
          = blockEntries s.disk (all k) ++ entriesFrom s.disk all (k + 1) left := by
        rw [entriesFrom, List.range'_succ, List.flatMap_cons]
        rfl
      rw [searchBlocks, hcons, List.find?_append]
      by_cases hzero : all k = 0
      · refine ⟨r, by rw [if_pos hzero, hrest], ?_⟩
        rw [hr, blockEntries, if_pos hzero]
        rfl
      · obtain ⟨buf, hread, hbuf⟩ := ideRead_block (s := s) (hall k)
        rw [if_neg hzero, hread, Outcome.ok_bind]
        have hfind := findName_spec hbuf hper hzero hname
          (hclear k (Nat.le_refl _) (by omega) hzero)
        cases hfound : findName s buf name with
        | some i =>
            rw [hfound] at hfind
            refine ⟨_, rfl, ?_⟩
            rw [← hfind]
            rfl
        | none =>
            rw [hfound] at hfind
            refine ⟨r, hrest, ?_⟩
            rw [← hfind, hr]
            rfl

/-- The result of `search_dir_entry` is that of its loop; the blocks are read
    in a state with more requests counted. -/
theorem searchDirEntry_eq {p : Nat} {name : List UInt8} {all : Nat → Nat} {r : Option DirEntry}
    (hall : allBlocks s.countMalloc (s.inodes p) = .ok all)
    (hsearch : searchBlocks s.countMalloc.countMalloc all name 140 0 = .ok r) :
    (∀ r' s', searchDirEntry s p name = .ok (r', s') → r' = r)
      ∧ (HeapServes s → ∃ s', searchDirEntry s p name = .ok (r, s')) := by
  constructor
  · intro r' s' hcall
    unfold searchDirEntry at hcall
    cases halloc : sysMalloc s with
    | mk allBlocksLba s₁ =>
    rw [halloc] at hcall
    obtain rfl := sysMalloc_state halloc
    cases allBlocksLba with
    | none => cases hcall
    | some allBlocksLba =>
      obtain ⟨all', hall', hcall⟩ := Outcome.bind_eq_ok.1 hcall
      have hall : allBlocks s.countMalloc (s.countMalloc.inodes p) = .ok all := hall
      rw [hall] at hall'
      cases hall'
      cases hbuf : sysMalloc s.countMalloc with
      | mk buf s₂ =>
      rw [hbuf] at hcall
      obtain rfl := sysMalloc_state hbuf
      cases buf with
      | none => cases hcall
      | some buf =>
        obtain ⟨dirE, hfound, hcall⟩ := Outcome.bind_eq_ok.1 hcall
        obtain ⟨_, -, hcall⟩ := Outcome.bind_eq_ok.1 hcall
        obtain ⟨_, -, hcall⟩ := Outcome.bind_eq_ok.1 hcall
        rw [hsearch] at hfound
        cases hfound
        cases hcall
        rfl
  · intro hheap
    refine ⟨s.countMalloc.countMalloc, ?_⟩
    have hall : allBlocks s.countMalloc (s.countMalloc.inodes p) = .ok all := hall
    rw [searchDirEntry, hheap.sysMalloc]
    simp only
    rw [hall, Outcome.ok_bind, hheap.countMalloc.sysMalloc]
    simp only
    rw [hsearch, Outcome.ok_bind, sysFree_own rfl, Outcome.ok_bind, sysFree_own rfl]
    rfl

/-- `search_dir_entry` finds the first live entry with the name. -/
theorem searchDirEntry_spec {p : Nat} {name : List UInt8} (h : DirRep s (s.inodes p))
    (hname : IsName name) :
    (∀ r s', searchDirEntry s p name = .ok (r, s') →
        r.map DirEntry.entry = (dirEntries s.disk (s.inodes p)).find? fun e => e.name = name)
      ∧ (HeapServes s → ∃ r s', searchDirEntry s p name = .ok (r, s')) := by
  obtain ⟨all, hall, href, hdisk⟩ := allBlocks_eq (s := s.countMalloc) h.onDisk
  have hclear : ∀ j, 0 ≤ j → j < 0 + 140 → all j ≠ 0 → ∀ i, i < slotsPerBlock →
      slotEntry s.disk (all j) i = none →
        ∀ a, a < dirEntryBytes → s.disk (all j * 512 + dirEntryBytes * i + a) = 0 := by
    intro j _ hj
    rw [href j (by omega)]
    exact fun hne => h.clear j hne (by omega)
  obtain ⟨r, hsearch, hr⟩ := searchBlocks_spec (s := s.countMalloc.countMalloc) (k := 0) hdisk
    h.perSec hname hclear
  have hr : r.map DirEntry.entry = (dirEntries s.disk (s.inodes p)).find? fun e => e.name = name := by
    rw [hr]
    exact congrArg _ (entriesFrom_eq href)
  obtain ⟨hresult, hreturns⟩ := searchDirEntry_eq hall hsearch
  refine ⟨fun r' s' hcall => ?_, fun hheap => ⟨r, hreturns hheap⟩⟩
  rw [hresult r' s' hcall, hr]

/-! ## Listing and looking up agree -/

/-- After `sys_rewinddir`, call `i` of `dir_read` returns live entry `i` in
    block and slot order, and NULL once `i_size / 24` entries were returned. -/
def ListsAll (s : FsState) (dir : Dir) : Prop :=
  ∀ n, ∃ des dir', dirReads s n (sysRewinddir dir) = .ok (des, dir')
    ∧ des.map (Option.map DirEntry.entry)
      = (List.range n).map fun i => (dirEntries s.disk (s.inodes dir.inode))[i]?

/-- `search_dir_entry` gives the first of the entries with the name. -/
def FindsFirst (s : FsState) (p : Nat) (name : List UInt8) : Prop :=
  (∀ r s', searchDirEntry s p name = .ok (r, s') →
      r.map DirEntry.entry = (dirEntries s.disk (s.inodes p)).find? fun e => e.name = name)
    ∧ (HeapServes s → ∃ r s', searchDirEntry s p name = .ok (r, s'))

/-- For every directory, listing it returns each live entry once and in order,
    as many as `i_size` says, and looking up a name finds the first of them. -/
theorem listing_agrees {dir : Dir} (h : DirRep s (s.inodes dir.inode)) :
    ListsAll s dir
      ∧ (dirEntries s.disk (s.inodes dir.inode)).length
        = (s.inodes dir.inode).iSize / s.part.sb.dirEntrySize
      ∧ ∀ name, IsName name → FindsFirst s dir.inode name := by
  refine ⟨fun n => ?_, ?_, fun name hname => searchDirEntry_spec h hname⟩
  · have hstart : (sysRewinddir dir).dirPos
        = dirEntryBytes * min 0 (dirEntries s.disk (s.inodes dir.inode)).length := by
      rw [Nat.zero_min]
      rfl
    have hrep : DirRep s (s.inodes (sysRewinddir dir).inode) := h
    obtain ⟨des, dir', hreads, hdes⟩ := dirReads_spec (m := n) hrep hstart
    exact ⟨des, dir', hreads, by rw [hdes, List.range_eq_range']; rfl⟩
  · rw [h.size, h.entrySize, Nat.mul_div_cancel_left _ (by decide)]

theorem listing_agrees_smallDir :
    ListsAll smallDirFs ⟨0, 0, none⟩ ∧ (dirEntries smallDirDisk smallDirInode).length = 96 / 24
      ∧ ∀ name, IsName name → FindsFirst smallDirFs 0 name :=
  @listing_agrees smallDirFs ⟨0, 0, none⟩ smallDirFs_dirRep

end Fs
end JackOS
