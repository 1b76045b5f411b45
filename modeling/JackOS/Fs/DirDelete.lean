/-
  JackOS.Fs.DirDelete

  `delete_dir_entry`.  The entry goes alone when something before it in its
  block was counted, "." or another file (`Kept`); else the block goes, with
  whatever lies behind the entry.  In the indirect table no block goes: the
  loop that counts the table's entries does not end, or counts none and fails
  its ASSERT.
-/

import JackOS.Fs.Entries
import JackOS.Fs.InodeRelease

namespace JackOS
namespace Fs

open Base

/-- An entry other than "." and "..". -/
def Entry.Plain (e : Entry) : Prop := e.name ≠ dot ∧ e.name ≠ dotDot

/-- Slot `i` of the block at `lba` holds an entry other than "." and ".." for
    inode `n`. -/
def Carries (d : Mem) (n lba i : Nat) : Prop :=
  ∃ e, slotEntry d lba i = some e ∧ e.Plain ∧ e.iNo = n

instance (e : Entry) : Decidable e.Plain := by
  unfold Entry.Plain
  infer_instance

instance (d : Mem) (n lba i : Nat) : Decidable (Carries d n lba i) :=
  decidable_of_iff ((slotEntry d lba i).any fun e => decide (e.Plain ∧ e.iNo = n)) (by
    unfold Carries
    cases slotEntry d lba i <;> simp)

/-- Something before slot `i` keeps its block: "." or a file. -/
def Kept (d : Mem) (lba i : Nat) : Prop :=
  ∃ j e, j < i ∧ slotEntry d lba j = some e ∧ e.name ≠ dotDot

variable {s s' : FsState} {d d' : Mem} {ino : Inode} {lba p n k i : Nat}

theorem slotEntry_some {e : Entry} (h : slotEntry d lba i = some e) :
    slotAt d lba i = e ∧ e.fType ≠ FileType.unknow.toWord := by
  unfold slotEntry at h
  split at h
  · cases h
  · cases h
    exact ⟨rfl, ‹_›⟩

/-! ## Scanning a block -/

/-- The scan of a block without the entry finds nothing. -/
theorem scanEntries_none {buf : Mem} {left idx : Nat} (cnt : Nat) (first : Bool)
    (hbuf : HoldsBlock buf d lba) (hidx : idx + left ≤ slotsPerBlock)
    (hno : ∀ j, idx ≤ j → j < idx + left → ¬ Carries d n lba j) :
    (scanEntries buf n left idx cnt first).2.2 = none := by
  induction left generalizing idx cnt first with
  | zero => rfl
  | succ left ih =>
      have hi : idx < slotsPerBlock := by omega
      have hrest : ∀ j, idx + 1 ≤ j → j < idx + 1 + left → ¬ Carries d n lba j :=
        fun j hj hj' => hno j (by omega) (by omega)
      have hdot : strEq buf (dirEntryBytes * idx) dot = true ↔ (slotAt d lba idx).name = dot :=
        hbuf.strEq_iff hi (by decide) (by decide)
      have hdotDot : strEq buf (dirEntryBytes * idx) dotDot = true
          ↔ (slotAt d lba idx).name = dotDot := hbuf.strEq_iff hi (by decide) (by decide)
      have hself := hno idx (Nat.le_refl _) (by omega)
      simp only [scanEntries, hbuf.fType hi, hbuf.iNo hi]
      split_ifs with hdead h₁ h₂ h₃
      · exact ih _ _ (by omega) hrest
      · exact ih _ _ (by omega) hrest
      · exact ih _ _ (by omega) hrest
      · exact absurd ⟨_, by rw [slotEntry, if_neg hdead],
          ⟨fun h => h₁ (hdot.2 h), fun h => h₂ (hdotDot.2 h)⟩, h₃⟩ hself
      · exact ih _ _ (by omega) hrest

/-- The scan stops at the first slot with the entry; it has counted nothing but
    the entry exactly when only free slots and ".." come before. -/
theorem scanEntries_some {buf : Mem} {left idx : Nat} (cnt : Nat) (first : Bool)
    (hbuf : HoldsBlock buf d lba) (hidx : idx + left ≤ slotsPerBlock) (hle : idx ≤ i)
    (hlt : i < idx + left) (hat : Carries d n lba i)
    (hno : ∀ j, idx ≤ j → j < i → ¬ Carries d n lba j) :
    ∃ cnt' first', scanEntries buf n left idx cnt first = (cnt', first', some i) ∧ 1 ≤ cnt'
      ∧ (cnt' = 1 ∧ first' = false ↔ cnt = 0 ∧ first = false
          ∧ ∀ j, idx ≤ j → j < i → ∀ e, slotEntry d lba j = some e → e.name = dotDot) := by
  induction left generalizing idx cnt first with
  | zero => omega
  | succ left ih =>
      have hi : idx < slotsPerBlock := by omega
      have hdot : strEq buf (dirEntryBytes * idx) dot = true ↔ (slotAt d lba idx).name = dot :=
        hbuf.strEq_iff hi (by decide) (by decide)
      have hdotDot : strEq buf (dirEntryBytes * idx) dotDot = true
          ↔ (slotAt d lba idx).name = dotDot := hbuf.strEq_iff hi (by decide) (by decide)
      -- the slots behind this one, when the entry is there
      have hrest : ∀ (cnt₁ : Nat) (first₁ : Bool), idx ≠ i →
          ∃ cnt' first', scanEntries buf n left (idx + 1) cnt₁ first₁ = (cnt', first', some i)
            ∧ 1 ≤ cnt' ∧ (cnt' = 1 ∧ first' = false ↔ cnt₁ = 0 ∧ first₁ = false
              ∧ ∀ j, idx + 1 ≤ j → j < i → ∀ e, slotEntry d lba j = some e → e.name = dotDot) :=
        fun _ _ hne => ih _ _ (by omega) (by omega) (by omega) fun j hj hj' => hno j (by omega) hj'
      have hsplit : (∀ j, idx ≤ j → j < i → ∀ e, slotEntry d lba j = some e → e.name = dotDot)
          ↔ (idx < i → ∀ e, slotEntry d lba idx = some e → e.name = dotDot)
            ∧ ∀ j, idx + 1 ≤ j → j < i → ∀ e, slotEntry d lba j = some e → e.name = dotDot := by
        constructor
        · exact fun h => ⟨fun hlt => h idx (Nat.le_refl _) hlt, fun j hj => h j (by omega)⟩
        · rintro ⟨h₁, h₂⟩ j hj hj'
          by_cases hji : j = idx
          · subst hji
            exact h₁ hj'
          · exact h₂ j (by omega) hj'
      -- what the slot holds when it is the one with the entry
      have hself : idx = i → (slotAt d lba idx).fType ≠ FileType.unknow.toWord
          ∧ (slotAt d lba idx).Plain ∧ (slotAt d lba idx).iNo = n := by
        rintro rfl
        obtain ⟨e, he, hplain, hno⟩ := hat
        obtain ⟨rfl, hlive⟩ := slotEntry_some he
        exact ⟨hlive, hplain, hno⟩
      simp only [scanEntries, hbuf.fType hi, hbuf.iNo hi]
      split_ifs with hdead h₁ h₂ h₃
      · -- a free slot
        have hne : idx ≠ i := fun heq => (hself heq).1 hdead
        obtain ⟨cnt', first', hscan, hpos, hiff⟩ := hrest cnt first hne
        refine ⟨cnt', first', hscan, hpos, ?_⟩
        rw [hiff, hsplit]
        refine and_congr_right fun _ => and_congr_right fun _ => ⟨fun h => ⟨fun _ e he => ?_, h⟩, And.right⟩
        rw [slotEntry, if_pos hdead] at he
        cases he
      · -- "."
        have hname := hdot.1 h₁
        have hne : idx ≠ i := fun heq => (hself heq).2.1.1 hname
        obtain ⟨cnt', first', hscan, hpos, hiff⟩ := hrest cnt true hne
        refine ⟨cnt', first', hscan, hpos, ?_⟩
        rw [hiff]
        refine iff_of_false (fun h => Bool.noConfusion h.2.1) fun h => ?_
        have hdd := (hsplit.1 h.2.2).1 (by omega) _ (by rw [slotEntry, if_neg hdead])
        rw [hname] at hdd
        exact absurd hdd (by decide)
      · -- ".."
        have hname := hdotDot.1 h₂
        have hne : idx ≠ i := fun heq => (hself heq).2.1.2 hname
        obtain ⟨cnt', first', hscan, hpos, hiff⟩ := hrest cnt first hne
        refine ⟨cnt', first', hscan, hpos, ?_⟩
        rw [hiff, hsplit]
        refine and_congr_right fun _ => and_congr_right fun _ => ⟨fun h => ⟨fun _ e he => ?_, h⟩, And.right⟩
        rw [← (slotEntry_some he).1]
        exact hname
      · -- the entry
        have heq : idx = i := by
          by_contra hne
          exact hno idx (Nat.le_refl _) (by omega) ⟨_, by rw [slotEntry, if_neg hdead],
            ⟨fun h => h₁ (hdot.2 h), fun h => h₂ (hdotDot.2 h)⟩, h₃⟩
        refine ⟨cnt + 1, first, by rw [heq], by omega, ?_⟩
        constructor
        · rintro ⟨hcnt, hfirst⟩
          exact ⟨by omega, hfirst, fun j hj hj' => by omega⟩
        · rintro ⟨hcnt, hfirst, -⟩
          exact ⟨by omega, hfirst⟩
      · -- another file
        have hne : idx ≠ i := fun heq => h₃ (hself heq).2.2
        obtain ⟨cnt', first', hscan, hpos, hiff⟩ := hrest (cnt + 1) first hne
        refine ⟨cnt', first', hscan, hpos, ?_⟩
        rw [hiff]
        refine iff_of_false (fun h => by omega) fun h => ?_
        have hdd := (hsplit.1 h.2.2).1 (by omega) _ (by rw [slotEntry, if_neg hdead])
        exact h₂ (hdotDot.2 hdd)

/-! ## Finding the block -/

/-- Slot `i` of block `k` is the first with an entry for inode `n` other than
    "." and "..". -/
structure FirstCarrier (d : Mem) (ino : Inode) (n k i : Nat) : Prop where
  block : k < 140
  there : blockRef d ino k ≠ 0
  slot : i < slotsPerBlock
  here : Carries d n (blockRef d ino k) i
  before : ∀ j, j < k → blockRef d ino j ≠ 0 → ∀ i', i' < slotsPerBlock →
    ¬ Carries d n (blockRef d ino j) i'
  above : ∀ i', i' < i → ¬ Carries d n (blockRef d ino k) i'

/-- What `delete_dir_entry` does at the block with the entry. -/
theorem deleteBlocks_at {all : Nat → Nat} {left k₀ : Nat} (hdisk : ∀ j, all j ≤ maxLba)
    (hper : s.dirEntryPerSec = slotsPerBlock)
    (href : ∀ j, j < 140 → all j = blockRef s.disk ino j) (hleft : k₀ + left = 140)
    (hk : k₀ ≤ k) (hat : FirstCarrier s.disk ino n k i) :
    ∃ buf cnt first, deleteBlocks p n all left k₀ s
        = (removeEntry p all k cnt first buf i s >>= fun s => .ok (true, s))
      ∧ HoldsBlock buf s.disk (blockRef s.disk ino k) ∧ 1 ≤ cnt
      ∧ (cnt = 1 ∧ first = false ↔ ¬ Kept s.disk (blockRef s.disk ino k) i) := by
  induction left generalizing k₀ with
  | zero =>
      have := hat.block
      omega
  | succ left ih =>
      have hk₀ := href k₀ (by omega)
      rw [deleteBlocks]
      by_cases heq : k₀ = k
      · subst heq
        obtain ⟨buf, hread, hbuf⟩ := ideRead_block (s := s) (hdisk k₀)
        rw [hk₀] at hbuf
        have hslots : 0 + slotsPerBlock ≤ slotsPerBlock := by omega
        have hslot : i < 0 + slotsPerBlock := by
          have := hat.slot
          omega
        obtain ⟨cnt, first, hscan, hpos, hiff⟩ := scanEntries_some 0 false hbuf
          hslots (Nat.zero_le i) hslot hat.here fun j _ hj => hat.above j hj
        refine ⟨buf, cnt, first, ?_, hbuf, hpos, ?_⟩
        · rw [if_neg (by rw [hk₀]; exact hat.there), hread, Outcome.ok_bind, hper, hscan]
        · rw [hiff]
          constructor
          · rintro ⟨-, -, hall⟩ ⟨j, e, hj, he, hne⟩
            exact hne (hall j (Nat.zero_le j) hj e he)
          · intro hkept
            refine ⟨rfl, rfl, fun j _ hj e he => ?_⟩
            by_contra hne
            exact hkept ⟨j, e, hj, he, hne⟩
      · have hrest := ih (show k₀ + 1 + left = 140 by omega) (by omega)
        by_cases hzero : all k₀ = 0
        · rw [if_pos hzero]
          exact hrest
        · -- a block without the entry
          obtain ⟨buf, hread, hbuf⟩ := ideRead_block (s := s) (hdisk k₀)
          rw [hk₀] at hbuf
          have hslots : 0 + slotsPerBlock ≤ slotsPerBlock := by omega
          have hnone := scanEntries_none (n := n) 0 false hbuf hslots
            fun j _ hj => hat.before k₀ (by omega) (by rw [← hk₀]; exact hzero) j (by omega)
          rw [if_neg hzero, hread, Outcome.ok_bind, hper]
          generalize hscan : scanEntries buf n slotsPerBlock 0 0 false = r at hnone
          obtain ⟨cnt, first, found⟩ := r
          cases hnone
          exact hrest

/-- Without the entry `delete_dir_entry` returns false. -/
theorem deleteBlocks_none {all : Nat → Nat} {left k₀ : Nat} (hdisk : ∀ j, all j ≤ maxLba)
    (hper : s.dirEntryPerSec = slotsPerBlock)
    (hno : ∀ j, k₀ ≤ j → j < k₀ + left → all j ≠ 0 → ∀ i, i < slotsPerBlock →
      ¬ Carries s.disk n (all j) i) : deleteBlocks p n all left k₀ s = .ok (false, s) := by
  induction left generalizing k₀ with
  | zero => rfl
  | succ left ih =>
      have hrest : deleteBlocks p n all left (k₀ + 1) s = .ok (false, s) :=
        ih fun j hj hj' => hno j (by omega) (by omega)
      rw [deleteBlocks]
      by_cases hzero : all k₀ = 0
      · rw [if_pos hzero]
        exact hrest
      · obtain ⟨buf, hread, hbuf⟩ := ideRead_block (s := s) (hdisk k₀)
        have hslots : 0 + slotsPerBlock ≤ slotsPerBlock := by omega
        have hnone := scanEntries_none (n := n) 0 false hbuf hslots
          fun j _ hj => hno k₀ (Nat.le_refl _) (by omega) hzero j (by omega)
        rw [if_neg hzero, hread, Outcome.ok_bind, hper]
        generalize hscan : scanEntries buf n slotsPerBlock 0 0 false = r at hnone
        obtain ⟨cnt, first, found⟩ := r
        cases hnone
        exact hrest

/-! ## After the entry is gone -/

/-- The state after the new size was stored and the inode written back. -/
def finishRemove (s : FsState) (p : Nat) : FsState :=
  let t := s.setInode p ((s.inodes p).withSize (subU32 (s.inodes p).iSize s.part.sb.dirEntrySize))
  t.setDisk (t.disk.copy (slotAddr t ((t.inodes p).iNo % 256)) (t.inodes p).synced.bytes 0
    (inodeSpan ((t.inodes p).iNo % 256)))

/-- Once the entry or its block is gone, the rest of the call goes through. -/
theorem removeEntry_eq {all : Nat → Nat} {cnt : Nat} {first : Bool} {buf : Mem} {s₁ : FsState}
    (hcnt : 1 ≤ cnt) (hclear : clearEntry p all k cnt first buf i s = .ok s₁)
    (hsb : s₁.part.sb = s.part.sb) (htab : InodeTableOnDisk s₁)
    (hsize : s.part.sb.dirEntrySize ≤ (s₁.inodes p).iSize) :
    removeEntry p all k cnt first buf i s = .ok (finishRemove s₁ p) := by
  have htab' : InodeTableOnDisk (s₁.setInode p ((s₁.inodes p).withSize
      (subU32 (s₁.inodes p).iSize s.part.sb.dirEntrySize))) := ⟨htab.onDisk, htab.inPartition⟩
  rw [removeEntry, kassert_pos hcnt, Outcome.ok_bind]
  simp only
  rw [hclear, Outcome.ok_bind, kassert_pos hsize, Outcome.ok_bind, inodeSync_eq htab', ← hsb]
  rfl

/-- A failure before that is a failure of the call. -/
theorem removeEntry_of_error {all : Nat → Nat} {cnt : Nat} {first : Bool} {buf : Mem} {e : Fault}
    (hcnt : 1 ≤ cnt) (hclear : clearEntry p all k cnt first buf i s = .error e) :
    removeEntry p all k cnt first buf i s = .error e := by
  rw [removeEntry, kassert_pos hcnt, Outcome.ok_bind]
  simp only
  rw [hclear, Outcome.error_bind]

@[simp] theorem finishRemove_node (s : FsState) (p : Nat) : (finishRemove s p).inodes p
    = (s.inodes p).withSize (subU32 (s.inodes p).iSize s.part.sb.dirEntrySize) := by
  simp [finishRemove]

@[simp] theorem finishRemove_part (s : FsState) (p : Nat) : (finishRemove s p).part = s.part := rfl

/-- Writing the inode back does not touch the data area. -/
theorem finishRemove_disk (htab : s.part.sb.inodeTableLba + 608 ≤ s.part.sb.dataStartLba)
    (p a : Nat) (ha : s.part.sb.dataStartLba * 512 ≤ a) : (finishRemove s p).disk a = s.disk a := by
  have hslot : ∀ m, m < 256 → slotAddr s m + inodeSpan m ≤ a := by
    intro m hm
    have hspan : inodeSpan m ≤ 76 := inodeSpan_le m
    have hrecord : 76 * m + inodeSpan m ≤ 608 * 512 := by omega
    calc slotAddr s m + inodeSpan m
        = s.part.sb.inodeTableLba * 512 + (76 * m + inodeSpan m) := Nat.add_assoc _ _ _
      _ ≤ s.part.sb.inodeTableLba * 512 + 608 * 512 := Nat.add_le_add_left hrecord _
      _ = (s.part.sb.inodeTableLba + 608) * 512 := (Nat.add_mul _ _ _).symm
      _ ≤ s.part.sb.dataStartLba * 512 := Nat.mul_le_mul_right _ htab
      _ ≤ a := ha
  simp only [finishRemove, FsState.setDisk_disk, FsState.setInode_inodes, Function.update_self,
    Inode.withSize_iNo, FsState.setInode_disk]
  exact Mem.copy_outside (.inr (hslot _ (Nat.mod_lt _ (by decide))))

/-- Nor does it change what the directory holds. -/
theorem finishRemove_entries (htab : s.part.sb.inodeTableLba + 608 ≤ s.part.sb.dataStartLba)
    (harea : ∀ j, blockRef s.disk (s.inodes p) j ≠ 0 →
      s.part.sb.dataStartLba ≤ blockRef s.disk (s.inodes p) j) :
    (∀ j, blockRef (finishRemove s p).disk ((finishRemove s p).inodes p) j
        = blockRef s.disk (s.inodes p) j)
      ∧ dirEntries (finishRemove s p).disk ((finishRemove s p).inodes p)
        = dirEntries s.disk (s.inodes p) := by
  refine dirEntries_of_outside (finishRemove_disk htab p) harea fun j _ => ?_
  rw [finishRemove_node, Inode.withSize_iSectors]

/-- `i_size` shrinks by one entry. -/
theorem finishRemove_size {m : Nat} (hentry : s.part.sb.dirEntrySize = dirEntryBytes)
    (hsize : (s.inodes p).iSize = dirEntryBytes * (m + 1)) (hlt : (s.inodes p).iSize < 2 ^ 32) :
    ((finishRemove s p).inodes p).iSize = dirEntryBytes * m := by
  rw [finishRemove_node, Inode.withSize_iSize, hentry]
  rw [hsize] at hlt ⊢
  rw [subU32_of_le (by simp only [dirEntryBytes]; omega) hlt, Nat.mul_succ, Nat.add_sub_cancel]

/-- Blocks of a directory lie in the data area. -/
theorem DirRep.area (h : DirRep s ino) (j : Nat) (hj : blockRef s.disk ino j ≠ 0) :
    s.part.sb.dataStartLba ≤ blockRef s.disk ino j :=
  dataStart_le_of_mem (h.sound.mem j hj)

/-- The end of the call, from a state where the entry or its block is gone. -/
theorem removeEntry_finish {all : Nat → Nat} {cnt : Nat} {first : Bool} {buf : Mem} {s₁ : FsState}
    (hs : Layout s) (hrep : DirRep s (s.inodes p)) (hpos : 0 < (dirEntries s.disk (s.inodes p)).length)
    (hcnt : 1 ≤ cnt) (hclear : clearEntry p all k cnt first buf i s = .ok s₁)
    (hsb : s₁.part.sb = s.part.sb) (htab : InodeTableOnDisk s₁)
    (hsize : (s₁.inodes p).iSize = (s.inodes p).iSize)
    (harea : ∀ j, blockRef s₁.disk (s₁.inodes p) j ≠ 0 →
      s.part.sb.dataStartLba ≤ blockRef s₁.disk (s₁.inodes p) j) :
    ∃ s', removeEntry p all k cnt first buf i s = .ok s'
      ∧ (s'.inodes p).iSize = dirEntryBytes * ((dirEntries s.disk (s.inodes p)).length - 1)
      ∧ dirEntries s'.disk (s'.inodes p) = dirEntries s₁.disk (s₁.inodes p)
      ∧ (∀ j, blockRef s'.disk (s'.inodes p) j = blockRef s₁.disk (s₁.inodes p) j)
      ∧ s'.part = s₁.part := by
  have hlt := hrep.iSize_lt
  have hm : (dirEntries s.disk (s.inodes p)).length
      = (dirEntries s.disk (s.inodes p)).length - 1 + 1 := by omega
  have hsize₁ : (s₁.inodes p).iSize
      = dirEntryBytes * ((dirEntries s.disk (s.inodes p)).length - 1 + 1) := by
    rw [hsize, ← hm]
    exact hrep.size
  have hle : s.part.sb.dirEntrySize ≤ (s₁.inodes p).iSize := by
    rw [hrep.entrySize, hsize₁]
    exact Nat.le_mul_of_pos_right _ (Nat.succ_pos _)
  have hremove := removeEntry_eq hcnt hclear hsb htab hle
  rw [← hsb] at harea
  obtain ⟨hrefs, hentries⟩ := finishRemove_entries (by rw [hsb]; exact hs.table_le) harea
  refine ⟨_, hremove, ?_, hentries, hrefs, rfl⟩
  exact finishRemove_size (by rw [hsb, hrep.entrySize]) hsize₁ (by rw [hsize]; exact hlt)

/-! ## The entry alone -/

/-- Writing the buffer back with the entry cleared. -/
theorem clearSlot_disk {buf : Mem} (hbuf : HoldsBlock buf d lba) (hi : i < slotsPerBlock)
    (hd' : d' = d.copy (lba * 512) (buf.fill (dirEntryBytes * i) 0 dirEntryBytes) 0 512) :
    (∀ a, a < lba * 512 + dirEntryBytes * i ∨ lba * 512 + dirEntryBytes * i + dirEntryBytes ≤ a →
      d' a = d a) ∧ slotEntry d' lba i = none := by
  simp only [dirEntryBytes, slotsPerBlock] at *
  constructor
  · intro a ha
    by_cases hin : lba * 512 ≤ a ∧ a < lba * 512 + 512
    · rw [hd', Mem.copy_inside hin.1 hin.2, Mem.fill_outside (by omega), hbuf _ (by omega)]
      exact congrArg d (by omega)
    · have hbefore : a < lba * 512 ∨ lba * 512 + 512 ≤ a := by
        clear ha
        omega
      rw [hd', Mem.copy_outside hbefore]
  · have hzero : ∀ b, b < 24 → d' (lba * 512 + (24 * i + b)) = 0 := by
      intro b hb
      rw [hd', Mem.copy_inside (Nat.le_add_right _ _) (by omega), Nat.add_sub_cancel_left,
        Mem.fill_inside (by omega) (by omega)]
    refine if_pos ?_
    show d'.le32 (lba * 512 + 24 * i + 20) = 0
    have h0 := hzero 20 (by omega)
    have h1 := hzero 21 (by omega)
    have h2 := hzero 22 (by omega)
    have h3 := hzero 23 (by omega)
    simp only [Mem.le32, Nat.add_assoc] at *
    rw [h0, h1, h2, h3]
    rfl

variable {all : Nat → Nat} {buf : Mem} {cnt : Nat} {first : Bool}

/-- What the call leaves behind: the entry is gone, all others are there, and
    `i_size` counts them. -/
structure Removed (s s' : FsState) (p n : Nat) : Prop where
  entries : ∃ e : Entry, e.Plain ∧ e.iNo = n
    ∧ (dirEntries s.disk (s.inodes p)).Perm (e :: dirEntries s'.disk (s'.inodes p))
  size : (s'.inodes p).iSize = dirEntryBytes * (dirEntries s'.disk (s'.inodes p)).length

/-- The block stays: its buffer is written back. -/
theorem clearEntry_kept (hrep : DirRep s (s.inodes p)) (hk : all k = blockRef s.disk (s.inodes p) k)
    (hkeep : ¬ (cnt = 1 ∧ first = false)) : clearEntry p all k cnt first buf i s
      = .ok (s.setDisk (s.disk.copy (blockRef s.disk (s.inodes p) k * 512)
        (buf.fill (dirEntryBytes * i) 0 dirEntryBytes) 0 512)) := by
  rw [clearEntry, if_neg hkeep, hk, hrep.entrySize, ideWrite, kassert_pos (hrep.onDisk k),
    Outcome.ok_bind, kassert_pos (by omega)]
  rfl

theorem removeEntry_kept (hs : Layout s) (hrep : DirRep s (s.inodes p))
    (hat : FirstCarrier s.disk (s.inodes p) n k i) (hk : all k = blockRef s.disk (s.inodes p) k)
    (hbuf : HoldsBlock buf s.disk (blockRef s.disk (s.inodes p) k)) (hcnt : 1 ≤ cnt)
    (hkeep : ¬ (cnt = 1 ∧ first = false)) :
    ∃ s', removeEntry p all k cnt first buf i s = .ok s' ∧ Removed s s' p n
      ∧ ∀ j, blockRef s'.disk (s'.inodes p) j = blockRef s.disk (s.inodes p) j := by
  let d₁ := s.disk.copy (blockRef s.disk (s.inodes p) k * 512)
    (buf.fill (dirEntryBytes * i) 0 dirEntryBytes) 0 512
  have hd₁ : d₁ = s.disk.copy (blockRef s.disk (s.inodes p) k * 512)
    (buf.fill (dirEntryBytes * i) 0 dirEntryBytes) 0 512 := rfl
  have hsec : ∀ j, j < 13 → (s.inodes p).iSectors j = (s.inodes p).iSectors j := fun _ _ => rfl
  obtain ⟨hout, hnone⟩ := clearSlot_disk hbuf hat.slot hd₁
  obtain ⟨e, he, hplain, hno⟩ := hat.here
  obtain ⟨href, rest, hold, hnew⟩ := dirEntries_perm_slot hrep.sound.inj hat.block hat.there hat.slot
    hout hsec
  rw [he] at hold
  rw [hnone] at hnew
  have hlen : (dirEntries s.disk (s.inodes p)).length = (dirEntries d₁ (s.inodes p)).length + 1 := by
    rw [hold.length_eq, hnew.length_eq]
    rfl
  have hclear : clearEntry p all k cnt first buf i s = .ok (s.setDisk d₁) :=
    clearEntry_kept hrep hk hkeep
  obtain ⟨s', hremove, hsize, hentries, hrefs, -⟩ := removeEntry_finish hs hrep (by omega) hcnt
    hclear rfl (hs.table.setDisk d₁) rfl fun j hj => by
      rw [FsState.setDisk_disk, FsState.setDisk_inodes, href j] at hj ⊢
      exact hrep.area j hj
  refine ⟨s', hremove, ⟨⟨e, hplain, hno, ?_⟩, ?_⟩, fun j => (hrefs j).trans (href j)⟩
  · rw [hentries]
    exact hold.trans (hnew.symm.cons e)
  · rw [hsize, hentries, hlen, Nat.add_sub_cancel]
    rfl

/-! ## The whole block -/

/-- Behind the block bitmap a change of a bit writes nothing. -/
theorem Layout.putBlockBit_behind (hs : Layout s) {b a : Nat} (hb : b < blockBits s) (v : Bool)
    (ha : s.part.sb.inodeTableLba * 512 ≤ a) : (putBlockBit s b v).disk a = s.disk a := by
  have h₁ := hs.blockMap_le
  have h₂ := hs.inodeMap_lt
  refine hs.putBlockBit_outside hb v ?_
  unfold inBlockMap
  omega

/-- The data area lies behind the inode table. -/
theorem Layout.dataStart_behind (hs : Layout s) {a : Nat}
    (ha : s.part.sb.dataStartLba * 512 ≤ a) : s.part.sb.inodeTableLba * 512 ≤ a := by
  have hle : s.part.sb.inodeTableLba ≤ s.part.sb.dataStartLba :=
    (Nat.le_add_right _ 608).trans hs.table_le
  exact (Nat.mul_le_mul_right 512 hle).trans ha

/-- The bit `delete_dir_entry` clears for the block at `lba`. -/
def droppedBit (s : FsState) (lba : Nat) : Nat := subU32 lba s.part.sb.blockBitmapLba

/-- It is not the root directory's. -/
theorem droppedBit_pos (hs : Layout s) (hl : lba ∈ usedBlocks s) : 0 < droppedBit s lba := by
  have h₁ := dataStart_le_of_mem hl
  have h₂ := hs.blockMap_le
  have h₃ := hs.inodeMap_lt
  have h₄ := hs.table_le
  have h₅ := hs.lba_lt hl
  rw [droppedBit, subU32_of_le (by omega) h₅]
  omega

/-- Clearing that bit, as far as the map has it. -/
theorem dropBit_eq (hs : Layout s) (hl : lba ∈ usedBlocks s)
    (hin : droppedBit s lba < blockBits s) :
    partBitmapSet s .blockBitmap (droppedBit s lba) false
        = .ok (setBlockBit s (droppedBit s lba) false)
      ∧ bitmapSync (setBlockBit s (droppedBit s lba) false) (droppedBit s lba) .blockBitmap
        = .ok (putBlockBit s (droppedBit s lba) false)
      ∧ Layout (putBlockBit s (droppedBit s lba) false) := by
  have hpos := droppedBit_pos hs hl
  have hroot : bitAt (setBitAt s.part.blockBitmap.bits (droppedBit s lba) false) 0 = true := by
    rw [bitAt_setBitAt, if_neg (Nat.ne_of_lt hpos)]
    exact hs.rootBit
  have hlay : Layout (setBlockBit s (droppedBit s lba) false) := hs.setBlocks hroot _
  exact ⟨partBitmapSet_block_eq_ok.2 ⟨hin, rfl⟩, hlay.bitmapSync_block hin, hs.setBlocks hroot _⟩

/-- A direct block goes: its bit and its pointer are cleared. -/
theorem clearEntry_direct (hs : Layout s) (hl : lba ∈ usedBlocks s) (hk12 : k < 12)
    (hk : all k = lba) (hdrop : cnt = 1 ∧ first = false) (hin : droppedBit s lba < blockBits s) :
    clearEntry p all k cnt first buf i s = .ok ((putBlockBit s (droppedBit s lba) false).setInode p
      ((s.inodes p).withSectors (Function.update (s.inodes p).iSectors k 0))) := by
  obtain ⟨hset, hsync, -⟩ := dropBit_eq hs hl hin
  rw [clearEntry, if_pos hdrop, dropBlock, hk]
  rw [← droppedBit, hset, Outcome.ok_bind, hsync, Outcome.ok_bind, if_pos hk12, setSector,
    if_pos (by omega)]
  rfl

/-- The block at `k < 12` goes, with all that is in it. -/
theorem removeEntry_direct (hs : Layout s) (hrep : DirRep s (s.inodes p)) (hk12 : k < 12)
    (hthere : blockRef s.disk (s.inodes p) k ≠ 0) (hpos : 0 < (dirEntries s.disk (s.inodes p)).length)
    (hk : all k = blockRef s.disk (s.inodes p) k) (hcnt : 1 ≤ cnt) (hdrop : cnt = 1 ∧ first = false)
    (hin : droppedBit s (blockRef s.disk (s.inodes p) k) < blockBits s) :
    ∃ s' rest, removeEntry p all k cnt first buf i s = .ok s'
      ∧ (dirEntries s.disk (s.inodes p)).Perm
        (blockEntries s.disk (blockRef s.disk (s.inodes p) k) ++ rest)
      ∧ (dirEntries s'.disk (s'.inodes p)).Perm rest
      ∧ (s'.inodes p).iSize = dirEntryBytes * ((dirEntries s.disk (s.inodes p)).length - 1)
      ∧ ∀ j, blockRef s'.disk (s'.inodes p) j
        = if j = k then 0 else blockRef s.disk (s.inodes p) j := by
  let ino₁ := (s.inodes p).withSectors (Function.update (s.inodes p).iSectors k 0)
  let s₁ := (putBlockBit s (droppedBit s (blockRef s.disk (s.inodes p) k)) false).setInode p ino₁
  have hnode : s₁.inodes p = ino₁ := Function.update_self ..
  have hclear : clearEntry p all k cnt first buf i s = .ok s₁ :=
    clearEntry_direct hs (hrep.sound.mem k hthere) hk12 hk hdrop hin
  have hdisk : ∀ a, s.part.sb.dataStartLba * 512 ≤ a → s₁.disk a = s.disk a :=
    fun a ha => hs.putBlockBit_behind hin false (hs.dataStart_behind ha)
  -- the map's sector is no part of the directory
  have hsec : ∀ j, j < 13 → (s.inodes p).iSectors j = (s.inodes p).iSectors j := fun _ _ => rfl
  obtain ⟨href, -⟩ := dirEntries_of_outside hdisk hrep.area hsec
  have href₁ : ∀ j, blockRef s₁.disk (s₁.inodes p) j
      = if j = k then 0 else blockRef s.disk (s.inodes p) j := by
    intro j
    rw [hnode, blockRef_setDirect _ _ hk12, href j]
  have hother : ∀ j, j < 140 → j ≠ k → blockEntries s₁.disk (blockRef s₁.disk (s₁.inodes p) j)
      = blockEntries s.disk (blockRef s.disk (s.inodes p) j) := by
    intro j _ hjk
    rw [href₁ j, if_neg hjk]
    refine SameBlock.blockEntries_eq fun hj a _ => hdisk _ ?_
    have := hrep.area j hj
    omega
  obtain ⟨rest, hold, hnew⟩ := dirEntries_perm_block (by omega) hother
  rw [href₁ k, if_pos rfl, blockEntries, if_pos rfl, List.nil_append] at hnew
  obtain ⟨s', hremove, hsize, hentries, hrefs, -⟩ := removeEntry_finish hs hrep hpos hcnt hclear
    rfl ⟨hs.table.onDisk, hs.table.inPartition⟩ (by rw [hnode]; rfl) fun j hj => by
      rw [href₁ j] at hj ⊢
      split at hj
      · exact absurd rfl hj
      · rw [if_neg ‹_›]
        exact hrep.area j hj
  exact ⟨s', rest, hremove, hold, by rw [hentries]; exact hnew, hsize,
    fun j => (hrefs j).trans (href₁ j)⟩

/-- The bit computed for a block may lie outside the map. -/
theorem removeEntry_badBit (hk : all k = lba) (hcnt : 1 ≤ cnt) (hdrop : cnt = 1 ∧ first = false)
    (hout : ¬ droppedBit s lba < blockBits s) :
    ∃ e, removeEntry p all k cnt first buf i s = .error e := by
  refine ⟨.undefined, removeEntry_of_error hcnt ?_⟩
  rw [clearEntry, if_pos hdrop, dropBlock, hk, ← droppedBit, partBitmapSet]
  exact congrArg (· >>= _) (if_neg hout)

/-- A block of the indirect table never goes in a kernel with ASSERT, nor while
    the table has an empty entry. -/
theorem removeEntry_stuck (hs : Layout s) (hrep : DirRep s (s.inodes p)) (hk12 : 12 ≤ k)
    (hthere : blockRef s.disk (s.inodes p) k ≠ 0) (hk : all k = blockRef s.disk (s.inodes p) k)
    (hcnt : 1 ≤ cnt) (hdrop : cnt = 1 ∧ first = false)
    (hno : ¬ (s.ndebug = true ∧ ∀ j, 12 ≤ j → j < 140 → all j ≠ 0)) :
    ∃ e, removeEntry p all k cnt first buf i s = .error e := by
  by_cases hin : droppedBit s (blockRef s.disk (s.inodes p) k) < blockBits s
  · obtain ⟨hset, hsync, -⟩ := dropBit_eq hs (hrep.sound.mem k hthere) hin
    by_cases hfull : ∃ j ∈ List.range' 12 128, all j = 0
    · -- the counting loop stands still
      refine ⟨.diverges, removeEntry_of_error hcnt ?_⟩
      rw [clearEntry, if_pos hdrop, dropBlock, hk, ← droppedBit, hset, Outcome.ok_bind, hsync,
        Outcome.ok_bind, if_neg (by omega), dropIndirect, if_pos hfull]
    · -- it ends, and has counted nothing
      refine ⟨.assertFailed, removeEntry_of_error hcnt ?_⟩
      have hdebug : ¬ (False ∨ (putBlockBit s
          (droppedBit s (blockRef s.disk (s.inodes p) k)) false).ndebug = true) := by
        rintro (hf | hnd)
        · exact hf
        · refine hno ⟨hnd, fun j hj hj' hz => hfull ⟨j, ?_, hz⟩⟩
          exact List.mem_range'_1.2 ⟨hj, by omega⟩
      rw [clearEntry, if_pos hdrop, dropBlock, hk, ← droppedBit, hset, Outcome.ok_bind, hsync,
        Outcome.ok_bind, if_neg (by omega), dropIndirect, if_neg hfull]
      simp only [kassert]
      rw [require_neg hdebug, Outcome.error_bind]
  · exact removeEntry_badBit hk hcnt hdrop hin

/-- The live entries found through the indirect table. -/
def indirectEntries (d : Mem) (ino : Inode) : List Entry :=
  (List.range' 12 128).flatMap fun k => blockEntries d (blockRef d ino k)

theorem dirEntries_eq_append (d : Mem) (ino : Inode) : dirEntries d ino
    = ((List.range 12).flatMap fun k => blockEntries d (blockRef d ino k))
      ++ indirectEntries d ino := by
  have hsplit : List.range 140 = List.range 12 ++ List.range' 12 128 := by
    rw [List.range_eq_range', List.range_eq_range', List.range'_append_1]
  rw [dirEntries, hsplit, List.flatMap_append]
  rfl

/-- Forgetting the table. -/
theorem blockRef_clearTable (d : Mem) (ino : Inode) (j : Nat) :
    blockRef d (ino.withSectors (Function.update ino.iSectors 12 0)) j
      = if j < 12 then blockRef d ino j else 0 := by
  have h12 : (ino.withSectors (Function.update ino.iSectors 12 0)).iSectors 12 = 0 := by
    rw [Inode.withSectors_iSectors, Function.update_self]
  by_cases hj : j < 12
  · rw [if_pos hj, blockRef_direct hj, blockRef_direct hj]
    exact Function.update_of_ne (by omega) _ _
  · rw [if_neg hj, blockRef_noTable (by omega) h12]

/-- In a kernel without ASSERT a block of a full table takes the table with it:
    the bits of both and the table's pointer are cleared. -/
theorem clearEntry_table (buf : Mem) (i : Nat) (hs : Layout s) (hrep : DirRep s (s.inodes p))
    (hk12 : 12 ≤ k)
    (hthere : blockRef s.disk (s.inodes p) k ≠ 0) (hk : all k = blockRef s.disk (s.inodes p) k)
    (hdrop : cnt = 1 ∧ first = false)
    (hin : droppedBit s (blockRef s.disk (s.inodes p) k) < blockBits s)
    (hndebug : s.ndebug = true) (hfull : ∀ j, 12 ≤ j → j < 140 → all j ≠ 0) :
    ∃ t b, t = putBlockBit s (droppedBit s (blockRef s.disk (s.inodes p) k)) false ∧ Layout t
      ∧ b < blockBits t ∧ (s.inodes p).iSectors 12 = s.part.sb.dataStartLba + b
      ∧ clearEntry p all k cnt first buf i s = .ok ((putBlockBit t b false).setInode p
        ((s.inodes p).withSectors (Function.update (s.inodes p).iSectors 12 0))) := by
  obtain ⟨hset, hsync, hlay⟩ := dropBit_eq hs (hrep.sound.mem k hthere) hin
  have htable : (s.inodes p).iSectors 12 ≠ 0 :=
    fun hz => hthere (blockRef_noTable hk12 hz)
  have hmem : (s.inodes p).iSectors 12 ∈ usedBlocks s := by
    have := hrep.sound.mem 140
    rw [blockRef_table] at this
    exact this htable
  obtain ⟨b, hb, hlba, -⟩ := hmem
  let t := putBlockBit s (droppedBit s (blockRef s.disk (s.inodes p) k)) false
  have hsub : subU32 ((t.inodes p).iSectors 12) t.part.sb.dataStartLba = b := by
    show subU32 ((s.inodes p).iSectors 12) s.part.sb.dataStartLba = b
    rw [hlba, hs.subU32_lba hb]
  have hnone : ¬ ∃ j ∈ List.range' 12 128, all j = 0 := by
    rintro ⟨j, hj, hz⟩
    have hj := List.mem_range'_1.1 hj
    exact hfull j hj.1 (by omega) hz
  have hset' : partBitmapSet t .blockBitmap b false = .ok (setBlockBit t b false) :=
    partBitmapSet_block_eq_ok.2 ⟨hb, rfl⟩
  have hsync' : bitmapSync (setBlockBit t b false) b .blockBitmap = .ok (putBlockBit t b false) :=
    bitmapSync_block_eq_ok.2 ⟨.inr hndebug, rfl⟩
  have hassert : kassert t False = .ok () := kassert_eq_ok.2 (.inr hndebug)
  have hdropped : dropIndirect p all t = .ok ((putBlockBit t b false).setInode p
      ((s.inodes p).withSectors (Function.update (s.inodes p).iSectors 12 0))) := by
    rw [dropIndirect, if_neg hnone, hassert, Outcome.ok_bind, hsub]
    simp only
    rw [hset', Outcome.ok_bind, hsync', Outcome.ok_bind, setSector, if_pos (by omega)]
    rfl
  refine ⟨t, b, rfl, hlay, hb, hlba, ?_⟩
  rw [clearEntry, if_pos hdrop, dropBlock, hk, ← droppedBit, hset, Outcome.ok_bind, hsync,
    Outcome.ok_bind, if_neg (by omega)]
  exact hdropped

/-- A block of a full table takes the table, and so all its blocks, with it. -/
theorem removeEntry_table (hs : Layout s) (hrep : DirRep s (s.inodes p)) (hk12 : 12 ≤ k)
    (hthere : blockRef s.disk (s.inodes p) k ≠ 0) (hpos : 0 < (dirEntries s.disk (s.inodes p)).length)
    (hk : all k = blockRef s.disk (s.inodes p) k) (hcnt : 1 ≤ cnt) (hdrop : cnt = 1 ∧ first = false)
    (hin : droppedBit s (blockRef s.disk (s.inodes p) k) < blockBits s)
    (hndebug : s.ndebug = true) (hfull : ∀ j, 12 ≤ j → j < 140 → all j ≠ 0) :
    ∃ s' rest, removeEntry p all k cnt first buf i s = .ok s'
      ∧ dirEntries s.disk (s.inodes p) = rest ++ indirectEntries s.disk (s.inodes p)
      ∧ dirEntries s'.disk (s'.inodes p) = rest
      ∧ (s'.inodes p).iSize = dirEntryBytes * ((dirEntries s.disk (s.inodes p)).length - 1) := by
  obtain ⟨t, b, rfl, hlay, hb, -, hclear⟩ := clearEntry_table buf i hs hrep hk12 hthere hk hdrop
    hin hndebug hfull
  let ino₁ := (s.inodes p).withSectors (Function.update (s.inodes p).iSectors 12 0)
  let s₁ := (putBlockBit (putBlockBit s (droppedBit s (blockRef s.disk (s.inodes p) k)) false) b
    false).setInode p ino₁
  have hnode : s₁.inodes p = ino₁ := Function.update_self ..
  have hdisk : ∀ a, s.part.sb.dataStartLba * 512 ≤ a → s₁.disk a = s.disk a := by
    intro a ha
    have hbehind := hs.dataStart_behind ha
    exact (hlay.putBlockBit_behind hb false hbehind).trans (hs.putBlockBit_behind hin false hbehind)
  have hsec : ∀ j, j < 13 → (s.inodes p).iSectors j = (s.inodes p).iSectors j := fun _ _ => rfl
  obtain ⟨href, -⟩ := dirEntries_of_outside hdisk hrep.area hsec
  have href₁ : ∀ j, blockRef s₁.disk (s₁.inodes p) j
      = if j < 12 then blockRef s.disk (s.inodes p) j else 0 := by
    intro j
    rw [hnode, blockRef_clearTable, href j]
  obtain ⟨s', hremove, hsize, hentries, -, -⟩ := removeEntry_finish hs hrep hpos hcnt hclear
    rfl ⟨hs.table.onDisk, hs.table.inPartition⟩ (by rw [hnode]; rfl) fun j hj => by
      rw [href₁ j] at hj ⊢
      split at hj
      · rw [if_pos ‹_›]
        exact hrep.area j hj
      · exact absurd rfl hj
  refine ⟨s', _, hremove, dirEntries_eq_append _ _, ?_, hsize⟩
  rw [hentries, dirEntries_eq_append]
  have hindirect : indirectEntries s₁.disk (s₁.inodes p) = [] := by
    rw [indirectEntries, List.flatMap_eq_nil_iff]
    intro j hj
    have hj := List.mem_range'_1.1 hj
    rw [href₁ j, if_neg (by omega), blockEntries, if_pos rfl]
  rw [hindirect, List.append_nil]
  refine List.flatMap_congr fun j hj => ?_
  rw [href₁ j, if_pos (List.mem_range.1 hj)]
  refine SameBlock.blockEntries_eq fun hne a _ => hdisk _ ?_
  have := hrep.area j hne
  omega

/-! ## Deleting exactly one entry -/

/-- Slot `i` of block `k` is the only one with an entry for inode `n` other than
    "." and "..". -/
structure OnlyCarrier (d : Mem) (ino : Inode) (n k i : Nat) : Prop where
  block : k < 140
  there : blockRef d ino k ≠ 0
  slot : i < slotsPerBlock
  here : Carries d n (blockRef d ino k) i
  only : ∀ j i', j < 140 → blockRef d ino j ≠ 0 → i' < slotsPerBlock →
    Carries d n (blockRef d ino j) i' → j = k ∧ i' = i

theorem OnlyCarrier.firstCarrier (h : OnlyCarrier d ino n k i) : FirstCarrier d ino n k i := by
  refine ⟨h.block, h.there, h.slot, h.here, fun j hj hthere i' hi' hc => ?_, fun i' hi' hc => ?_⟩
  · have hblock := h.block
    have := (h.only j i' (by omega) hthere hi' hc).1
    omega
  · have hslot := h.slot
    have := (h.only k i' h.block h.there (by omega) hc).2
    omega

/-- What `delete_dir_entry` does, by the place of the entry. -/
theorem deleteDirEntry_at (hrep : DirRep s (s.inodes p))
    (hat : FirstCarrier s.disk (s.inodes p) n k i) :
    ∃ all buf cnt first, deleteDirEntry s p n
        = (removeEntry p all k cnt first buf i s >>= fun s => .ok (true, s))
      ∧ (∀ j, j < 140 → all j = blockRef s.disk (s.inodes p) j)
      ∧ HoldsBlock buf s.disk (blockRef s.disk (s.inodes p) k) ∧ 1 ≤ cnt
      ∧ (cnt = 1 ∧ first = false ↔ ¬ Kept s.disk (blockRef s.disk (s.inodes p) k) i) := by
  obtain ⟨all, hall, href, hdisk⟩ := allBlocks_eq hrep.onDisk
  obtain ⟨buf, cnt, first, hloop, hbuf, hcnt, hiff⟩ :=
    deleteBlocks_at (p := p) hdisk hrep.perSec href (Nat.zero_add 140) (Nat.zero_le k) hat
  exact ⟨all, buf, cnt, first, by rw [deleteDirEntry, hall, Outcome.ok_bind, hloop], href, hbuf,
    hcnt, hiff⟩

theorem FirstCarrier.entry_mem (h : FirstCarrier d ino n k i) :
    ∃ e : Entry, e.Plain ∧ e.iNo = n ∧ e ∈ blockEntries d (blockRef d ino k) := by
  obtain ⟨e, he, hplain, hno⟩ := h.here
  refine ⟨e, hplain, hno, ?_⟩
  rw [blockEntries, if_neg h.there]
  exact List.mem_filterMap.2 ⟨i, List.mem_range.2 h.slot, he⟩

theorem FirstCarrier.entry_mem_dir (h : FirstCarrier d ino n k i) :
    0 < (dirEntries d ino).length := by
  obtain ⟨e, -, -, hmem⟩ := h.entry_mem
  exact List.length_pos_of_mem
    (List.mem_flatMap.2 ⟨k, List.mem_range.2 h.block, hmem⟩ : e ∈ dirEntries d ino)

/-- The only entry of a list that has one entry. -/
theorem eq_singleton_of_mem {l : List Entry} {e : Entry} (h : e ∈ l) (hlen : l.length = 1) :
    l = [e] := by
  obtain ⟨x, rfl⟩ := List.length_eq_one_iff.1 hlen
  rw [List.mem_singleton.1 h]

/-- `delete_dir_entry` removes the entry for `n` and nothing else. -/
def Deletes (s : FsState) (p n : Nat) : Prop :=
  ∃ s', deleteDirEntry s p n = .ok (true, s') ∧ Removed s s' p n

/-- When it does, for an entry in slot `i` of block `k`: "." or another file
    comes before it in the block; or it is alone in a direct block, and the bit
    computed for the block lies in the map.  (The last case is one without
    ASSERT, where a full table goes with the last entry behind it.) -/
def DeleteOk (s : FsState) (ino : Inode) (k i : Nat) : Prop :=
  Kept s.disk (blockRef s.disk ino k) i
    ∨ droppedBit s (blockRef s.disk ino k) < blockBits s
      ∧ (k < 12 ∧ (blockEntries s.disk (blockRef s.disk ino k)).length = 1
        ∨ 12 ≤ k ∧ s.ndebug = true ∧ (∀ j, 12 ≤ j → j < 140 → blockRef s.disk ino j ≠ 0)
          ∧ (indirectEntries s.disk ino).length = 1)

theorem deletes_of_deleteOk (hs : Layout s) (hrep : DirRep s (s.inodes p))
    (hat : FirstCarrier s.disk (s.inodes p) n k i) (hok : DeleteOk s (s.inodes p) k i) :
    Deletes s p n := by
  obtain ⟨all, buf, cnt, first, heq, href, hbuf, hcnt, hiff⟩ := deleteDirEntry_at hrep hat
  obtain ⟨e, hplain, hno, hmem⟩ := hat.entry_mem
  have hpos := hat.entry_mem_dir
  have hk := href k hat.block
  by_cases hkept : Kept s.disk (blockRef s.disk (s.inodes p) k) i
  · obtain ⟨s', hremove, hremoved, -⟩ := removeEntry_kept hs hrep hat hk hbuf hcnt
      fun h => (hiff.1 h) hkept
    exact ⟨s', by rw [heq, hremove, Outcome.ok_bind], hremoved⟩
  · have hdrop := hiff.2 hkept
    obtain ⟨hin, hwhich⟩ := hok.resolve_left hkept
    rcases hwhich with ⟨hk12, hone⟩ | ⟨hk12, hndebug, hfull, hone⟩
    · obtain ⟨s', rest, hremove, hold, hnew, hsize, -⟩ :=
        removeEntry_direct hs hrep hk12 hat.there hpos hk hcnt hdrop hin
      rw [eq_singleton_of_mem hmem hone] at hold
      refine ⟨s', by rw [heq, hremove, Outcome.ok_bind],
        ⟨e, hplain, hno, hold.trans (hnew.symm.cons e)⟩, ?_⟩
      rw [hsize, hold.length_eq, hnew.length_eq]
      rfl
    · have hmem' : e ∈ indirectEntries s.disk (s.inodes p) := by
        have hblock := hat.block
        exact List.mem_flatMap.2 ⟨k, List.mem_range'_1.2 ⟨hk12, by omega⟩, hmem⟩
      obtain ⟨s', rest, hremove, hold, hnew, hsize⟩ := removeEntry_table hs hrep hk12 hat.there hpos
        hk hcnt hdrop hin hndebug fun j h₁ h₂ => by rw [href j h₂]; exact hfull j h₁ h₂
      rw [eq_singleton_of_mem hmem' hone] at hold
      refine ⟨s', by rw [heq, hremove, Outcome.ok_bind], ⟨e, hplain, hno, ?_⟩, ?_⟩
      · rw [hold, hnew]
        exact List.perm_append_comm
      · rw [hsize, hold, hnew, List.length_append]
        rfl

theorem Removed.length (h : Removed s s' p n) : (dirEntries s.disk (s.inodes p)).length
    = (dirEntries s'.disk (s'.inodes p)).length + 1 := by
  obtain ⟨e, -, -, hperm⟩ := h.entries
  exact hperm.length_eq

theorem deleteOk_of_deletes (hs : Layout s) (hrep : DirRep s (s.inodes p))
    (hat : FirstCarrier s.disk (s.inodes p) n k i) (h : Deletes s p n) :
    DeleteOk s (s.inodes p) k i := by
  obtain ⟨all, buf, cnt, first, heq, href, hbuf, hcnt, hiff⟩ := deleteDirEntry_at hrep hat
  obtain ⟨s₁, hcall, hremoved⟩ := h
  have hlen := hremoved.length
  have hpos := hat.entry_mem_dir
  have hk := href k hat.block
  obtain ⟨s₂, hremove₁, hs₂⟩ := Outcome.bind_eq_ok.1 (heq.symm.trans hcall)
  cases hs₂
  by_cases hkept : Kept s.disk (blockRef s.disk (s.inodes p) k) i
  · exact .inl hkept
  · have hdrop := hiff.2 hkept
    -- otherwise the call would have failed
    have hin : droppedBit s (blockRef s.disk (s.inodes p) k) < blockBits s := by
      by_contra hout
      obtain ⟨err, herr⟩ : ∃ e, removeEntry p all k cnt first buf i s = .error e :=
        removeEntry_badBit hk hcnt hdrop hout
      rw [herr] at hremove₁
      cases hremove₁
    refine .inr ⟨hin, ?_⟩
    by_cases hk12 : k < 12
    · obtain ⟨s', rest, hremove, hold, hnew, -⟩ :=
        removeEntry_direct hs hrep hk12 hat.there hpos hk hcnt hdrop hin
      rw [hremove] at hremove₁
      cases hremove₁
      have h₁ := hold.length_eq
      have h₂ := hnew.length_eq
      rw [List.length_append] at h₁
      exact .inl ⟨hk12, by omega⟩
    · by_cases hfull : s.ndebug = true ∧ ∀ j, 12 ≤ j → j < 140 → all j ≠ 0
      · obtain ⟨s', rest, hremove, hold, hnew, -⟩ := removeEntry_table hs hrep (by omega) hat.there
          hpos hk hcnt hdrop hin hfull.1 hfull.2
        rw [hremove] at hremove₁
        cases hremove₁
        rw [hold, hnew, List.length_append] at hlen
        refine .inr ⟨by omega, hfull.1, fun j h₁ h₂ => ?_, by omega⟩
        rw [← href j h₂]
        exact hfull.2 j h₁ h₂
      · obtain ⟨err, herr⟩ : ∃ e, removeEntry p all k cnt first buf i s = .error e :=
          removeEntry_stuck hs hrep (by omega) hat.there hk hcnt hdrop hfull
        rw [herr] at hremove₁
        cases hremove₁

/-- For every directory and every inode number that exactly one of its files
    carries: `delete_dir_entry` deletes exactly that entry if and only if the
    entry's place is a good one. -/
theorem deletes_iff_deleteOk (s : FsState) (p n k i : Nat) (hs : Layout s)
    (hrep : DirRep s (s.inodes p)) (hat : OnlyCarrier s.disk (s.inodes p) n k i) :
    Deletes s p n ↔ DeleteOk s (s.inodes p) k i :=
  ⟨deleteOk_of_deletes hs hrep hat.firstCarrier, deletes_of_deleteOk hs hrep hat.firstCarrier⟩

/-- The entries of the small directory. -/
theorem smallDir_only {n i : Nat} (hi : i < 2)
    (hcarries : Carries smallDirDisk n 614 i)
    (honly : ∀ b ∈ [613, 614], ∀ j, j < slotsPerBlock → Carries smallDirDisk n b j → b = 614 ∧ j = i) :
    OnlyCarrier smallDirFs.disk (smallDirFs.inodes 0) n 1 i where
  block := by omega
  there := by
    show blockRef smallDirDisk smallDirInode 1 ≠ 0
    rw [smallDirFs_ref]
    decide
  slot := by simp only [slotsPerBlock]; omega
  here := by
    show Carries smallDirDisk n (blockRef smallDirDisk smallDirInode 1) i
    rw [smallDirFs_ref]
    exact hcarries
  only j i' _ hthere hi' hc := by
    have href : blockRef smallDirFs.disk (smallDirFs.inodes 0) j
        = if j = 0 then 613 else if j = 1 then 614 else 0 := smallDirFs_ref _ _
    rw [href] at hthere hc
    by_cases h0 : j = 0
    · rw [if_pos h0] at hc
      exact absurd (honly 613 (by simp) i' hi' hc).1 (by decide)
    · rw [if_neg h0] at hthere hc
      by_cases h1 : j = 1
      · rw [if_pos h1] at hc
        exact ⟨h1, (honly 614 (by simp) i' hi' hc).2⟩
      · rw [if_neg h1] at hthere
        exact absurd rfl hthere

/-- The second file of the second block. -/
theorem deletes_iff_deleteOk_smallDir :
    Deletes smallDirFs 0 3 ↔ DeleteOk smallDirFs smallDirInode 1 1 :=
  deletes_iff_deleteOk smallDirFs 0 3 1 1 smallDirFs_layout smallDirFs_dirRep
    (smallDir_only (by decide) (by decide +kernel) (by decide +kernel))

/-- Deleting the first file of the second block loses the second one. -/
theorem not_deletes_smallDir : ¬ ∀ s p n k i, Layout s → DirRep s (s.inodes p) →
    OnlyCarrier s.disk (s.inodes p) n k i → Deletes s p n := by
  intro h
  have honly : OnlyCarrier smallDirFs.disk (smallDirFs.inodes 0) 2 1 0 :=
    smallDir_only (by decide) (by decide +kernel) (by decide +kernel)
  have hok := deleteOk_of_deletes smallDirFs_layout smallDirFs_dirRep honly.firstCarrier
    (h smallDirFs 0 2 1 0 smallDirFs_layout smallDirFs_dirRep honly)
  rcases hok with ⟨j, -, hj, -⟩ | ⟨-, ⟨-, hone⟩ | ⟨hk, -⟩⟩
  · exact Nat.not_lt_zero j hj
  · have htwo : (blockEntries smallDirDisk 614).length = 2 := by decide +kernel
    have href : blockRef smallDirFs.disk (smallDirFs.inodes 0) 1 = 614 := smallDirFs_ref _ 1
    rw [href] at hone
    exact absurd (htwo.symm.trans hone) (by decide)
  · exact absurd hk (by decide)

/-! ## Coming to an end -/

/-- When block `k` was the last one of the indirect table and is gone now, the
    table's own block is free. -/
def TableFollows (s s' : FsState) (p : Nat) : Prop :=
  ∀ k, 12 ≤ k → k < 140 → blockRef s.disk (s.inodes p) k ≠ 0 →
    (∀ j, 12 ≤ j → j < 140 → j ≠ k → blockRef s.disk (s.inodes p) j = 0) →
    blockRef s'.disk (s'.inodes p) k = 0 →
      (s'.inodes p).iSectors 12 = 0 ∧ (s.inodes p).iSectors 12 ∉ usedBlocks s'

/-- `delete_dir_entry` returns, and the table goes with its last block. -/
def DeleteReturns (s : FsState) (p n : Nat) : Prop :=
  ∃ r s', deleteDirEntry s p n = .ok (r, s') ∧ TableFollows s s' p

/-- When it does: something before the entry keeps its block; or the bit
    computed for the block lies in the map and the block is a direct one.  (Or
    there is no ASSERT, and the table is full.) -/
def ReturnOk (s : FsState) (ino : Inode) (k i : Nat) : Prop :=
  Kept s.disk (blockRef s.disk ino k) i
    ∨ droppedBit s (blockRef s.disk ino k) < blockBits s
      ∧ (k < 12 ∨ s.ndebug = true ∧ ∀ j, 12 ≤ j → j < 140 → blockRef s.disk ino j ≠ 0)

theorem deleteReturns_of_returnOk (hs : Layout s) (hrep : DirRep s (s.inodes p))
    (hat : FirstCarrier s.disk (s.inodes p) n k i) (hok : ReturnOk s (s.inodes p) k i) :
    DeleteReturns s p n := by
  obtain ⟨all, buf, cnt, first, heq, href, hbuf, hcnt, hiff⟩ := deleteDirEntry_at hrep hat
  have hpos := hat.entry_mem_dir
  have hk := href k hat.block
  by_cases hkept : Kept s.disk (blockRef s.disk (s.inodes p) k) i
  · obtain ⟨s', hremove, -, hrefs⟩ := removeEntry_kept hs hrep hat hk hbuf hcnt
      fun h => (hiff.1 h) hkept
    refine ⟨true, s', by rw [heq, hremove, Outcome.ok_bind], fun k' _ _ hne _ hgone => ?_⟩
    rw [hrefs k'] at hgone
    exact absurd hgone hne
  · have hdrop := hiff.2 hkept
    obtain ⟨hin, hwhich⟩ := hok.resolve_left hkept
    by_cases hk12 : k < 12
    · obtain ⟨s', rest, hremove, -, -, -, hrefs⟩ :=
        removeEntry_direct hs hrep hk12 hat.there hpos hk hcnt hdrop hin
      refine ⟨true, s', by rw [heq, hremove, Outcome.ok_bind], fun k' hk' _ hne _ hgone => ?_⟩
      rw [hrefs k', if_neg (by omega)] at hgone
      exact absurd hgone hne
    · obtain ⟨hndebug, hfull⟩ := hwhich.resolve_left hk12
      obtain ⟨s', rest, hremove, -, -, -⟩ := removeEntry_table hs hrep (by omega) hat.there hpos
        hk hcnt hdrop hin hndebug fun j h₁ h₂ => by rw [href j h₂]; exact hfull j h₁ h₂
      refine ⟨true, s', by rw [heq, hremove, Outcome.ok_bind], fun k' hk' hk140 _ hothers _ => ?_⟩
      -- a full table has more than one block
      by_cases h12 : k' = 12
      · exact absurd (hothers 13 (by omega) (by omega) (by omega)) (hfull 13 (by omega) (by omega))
      · exact absurd (hothers 12 (by omega) (by omega) (by omega)) (hfull 12 (by omega) (by omega))

theorem returnOk_of_call {r : Bool} (hs : Layout s) (hrep : DirRep s (s.inodes p))
    (hat : FirstCarrier s.disk (s.inodes p) n k i) (hcall : deleteDirEntry s p n = .ok (r, s')) :
    ReturnOk s (s.inodes p) k i := by
  obtain ⟨all, buf, cnt, first, heq, href, hbuf, hcnt, hiff⟩ := deleteDirEntry_at hrep hat
  have hk := href k hat.block
  obtain ⟨s₂, hremove, -⟩ := Outcome.bind_eq_ok.1 (heq.symm.trans hcall)
  by_cases hkept : Kept s.disk (blockRef s.disk (s.inodes p) k) i
  · exact .inl hkept
  · have hdrop := hiff.2 hkept
    have hin : droppedBit s (blockRef s.disk (s.inodes p) k) < blockBits s := by
      by_contra hout
      obtain ⟨err, herr⟩ : ∃ e, removeEntry p all k cnt first buf i s = .error e :=
        removeEntry_badBit hk hcnt hdrop hout
      rw [herr] at hremove
      cases hremove
    refine .inr ⟨hin, ?_⟩
    by_cases hk12 : k < 12
    · exact .inl hk12
    · by_cases hfull : s.ndebug = true ∧ ∀ j, 12 ≤ j → j < 140 → all j ≠ 0
      · refine .inr ⟨hfull.1, fun j h₁ h₂ => ?_⟩
        rw [← href j h₂]
        exact hfull.2 j h₁ h₂
      · obtain ⟨err, herr⟩ : ∃ e, removeEntry p all k cnt first buf i s = .error e :=
          removeEntry_stuck hs hrep (by omega) hat.there hk hcnt hdrop hfull
        rw [herr] at hremove
        cases hremove

theorem returnOk_of_deleteReturns (hs : Layout s) (hrep : DirRep s (s.inodes p))
    (hat : FirstCarrier s.disk (s.inodes p) n k i) (h : DeleteReturns s p n) :
    ReturnOk s (s.inodes p) k i := by
  obtain ⟨r, s', hcall, -⟩ := h
  exact returnOk_of_call hs hrep hat hcall

/-- The first of the slots with an entry for `n`. -/
theorem exists_firstCarrier (h : ∃ k i, k < 140 ∧ blockRef d ino k ≠ 0 ∧ i < slotsPerBlock
    ∧ Carries d n (blockRef d ino k) i) : ∃ k i, FirstCarrier d ino n k i := by
  classical
  obtain ⟨i₀, hk, hthere, hi₀, hc₀⟩ := Nat.find_spec h
  have hslot : ∃ i, i < slotsPerBlock ∧ Carries d n (blockRef d ino (Nat.find h)) i := ⟨i₀, hi₀, hc₀⟩
  refine ⟨Nat.find h, Nat.find hslot, hk, hthere, (Nat.find_spec hslot).1, (Nat.find_spec hslot).2,
    fun j hj hjthere i' hi' hc => ?_, fun i' hi' hc => ?_⟩
  · exact Nat.find_min h hj ⟨i', by omega, hjthere, hi', hc⟩
  · have hlt := (Nat.find_spec hslot).1
    exact Nat.find_min hslot hi' ⟨by omega, hc⟩

/-- Where there is nothing to delete the call returns false. -/
theorem deleteDirEntry_none (hrep : DirRep s (s.inodes p))
    (hno : ∀ k i, k < 140 → blockRef s.disk (s.inodes p) k ≠ 0 → i < slotsPerBlock →
      ¬ Carries s.disk n (blockRef s.disk (s.inodes p) k) i) :
    deleteDirEntry s p n = .ok (false, s) := by
  obtain ⟨all, hall, href, hdisk⟩ := allBlocks_eq hrep.onDisk
  have hnone : ∀ j, 0 ≤ j → j < 0 + 140 → all j ≠ 0 → ∀ i, i < slotsPerBlock →
      ¬ Carries s.disk n (all j) i := by
    intro j _ hj hne i hi
    rw [href j (by omega)] at hne ⊢
    exact hno j i (by omega) hne hi
  rw [deleteDirEntry, hall, Outcome.ok_bind, deleteBlocks_none hdisk hrep.perSec hnone]

/-- For every directory and every inode number: `delete_dir_entry` returns, and
    frees the table with its last block, if and only if the place of the entry
    it finds, if any, is a good one. -/
theorem deleteReturns_iff_returnOk (s : FsState) (p n : Nat) (hs : Layout s)
    (hrep : DirRep s (s.inodes p)) :
    DeleteReturns s p n ↔
      ∀ k i, FirstCarrier s.disk (s.inodes p) n k i → ReturnOk s (s.inodes p) k i := by
  constructor
  · exact fun h k i hat => returnOk_of_deleteReturns hs hrep hat h
  · intro h
    by_cases hsome : ∃ k i, k < 140 ∧ blockRef s.disk (s.inodes p) k ≠ 0 ∧ i < slotsPerBlock
        ∧ Carries s.disk n (blockRef s.disk (s.inodes p) k) i
    · obtain ⟨k, i, hat⟩ := exists_firstCarrier hsome
      exact deleteReturns_of_returnOk hs hrep hat (h k i hat)
    · refine ⟨false, s, deleteDirEntry_none hrep fun k i hk hne hi hc => ?_,
        fun k _ _ hne _ hgone => absurd hgone hne⟩
      exact hsome ⟨k, i, hk, hne, hi, hc⟩

theorem deleteReturns_iff_returnOk_smallDir : DeleteReturns smallDirFs 0 3 ↔
    ∀ k i, FirstCarrier smallDirDisk smallDirInode 3 k i → ReturnOk smallDirFs smallDirInode k i :=
  deleteReturns_iff_returnOk smallDirFs 0 3 smallDirFs_layout smallDirFs_dirRep

/-- A directory whose only file lies in the first block of the table. -/
def tableDirDisk : Mem :=
  putSlot (putSlot (putSlot (Mem.zero.store32 (614 * 512) 615) 613 0 (shortEntry dot 1 2))
    613 1 (shortEntry dotDot 0 2)) 615 0 (shortEntry [97] 2 1)

def tableDirFs : FsState :=
  { smallDirFs with
    disk := tableDirDisk
    part := { smallDirFs.part with
      blockBitmap := ⟨512, setBitAt smallDirFs.part.blockBitmap.bits 3 true⟩ }
    inodes := fun _ => { smallDirInode with
      iSize := 72, iSectors := fun j => if j = 0 then 613 else if j = 12 then 614 else 0 } }

theorem tableDirFs_ref (j : Nat) : blockRef tableDirFs.disk (tableDirFs.inodes 0) j
    = if j = 0 then 613 else if j = 12 then 615 else if j = 140 then 614 else 0 := by
  have hall : ∀ j, j < 141 → blockRef tableDirFs.disk (tableDirFs.inodes 0) j
      = if j = 0 then 613 else if j = 12 then 615 else if j = 140 then 614 else 0 := by
    decide +kernel
  by_cases hj : j < 141
  · exact hall j hj
  · rw [blockRef_past (by omega), if_neg (by omega), if_neg (by omega), if_neg (by omega)]

theorem tableDirFs_dirRep : DirRep tableDirFs (tableDirFs.inodes 0) where
  entrySize := rfl
  sound := by
    refine ⟨fun i j hi heq => ?_, fun i hi => ?_⟩
    · rw [tableDirFs_ref] at hi
      rw [tableDirFs_ref, tableDirFs_ref] at heq
      split_ifs at hi heq <;> omega
    · rw [tableDirFs_ref] at hi ⊢
      split_ifs at hi ⊢
      · exact ⟨1, by decide, rfl, by decide⟩
      · exact ⟨3, by decide, rfl, by decide⟩
      · exact ⟨2, by decide, rfl, by decide⟩
      · exact absurd rfl hi
  onDisk j := by
    rw [tableDirFs_ref]
    split_ifs <;> decide
  size := by decide +kernel
  clear k hk hk140 i hi hdead a ha := by
    have hlive : ∀ c ∈ [(613, 0), (613, 1), (615, 0)], slotEntry tableDirDisk c.1 c.2 ≠ none := by
      decide +kernel
    have hzero : ∀ b i, (b = 613 ∧ 2 ≤ i ∨ b = 615 ∧ 1 ≤ i) → i < slotsPerBlock →
        tableDirDisk (b * 512 + dirEntryBytes * i + a) = 0 := by
      intro b i hb hi
      simp only [dirEntryBytes, slotsPerBlock] at *
      simp only [tableDirDisk, putSlot, dirEntryBytes]
      rw [Mem.copy_outside (by omega), Mem.copy_outside (by omega), Mem.copy_outside (by omega),
        Mem.store32_outside (by omega)]
      rfl
    have hdead : slotEntry tableDirDisk (blockRef tableDirFs.disk (tableDirFs.inodes 0) k) i = none :=
      hdead
    show tableDirDisk _ = 0
    rw [tableDirFs_ref] at hk hdead ⊢
    split_ifs at hk hdead ⊢
    · refine hzero 613 i (.inl ⟨rfl, ?_⟩) hi
      by_contra hlt
      interval_cases i
      · exact hlive (613, 0) (by simp) hdead
      · exact hlive (613, 1) (by simp) hdead
    · refine hzero 615 i (.inr ⟨rfl, ?_⟩) hi
      by_contra hlt
      interval_cases i
      exact hlive (615, 0) (by simp) hdead
    · omega
    · exact absurd rfl hk

/-- Deleting that file never ends. -/
theorem not_deleteReturns_tableDir : ¬ ∀ s p n, Layout s → DirRep s (s.inodes p) →
    DeleteReturns s p n := by
  intro h
  have hs : Layout tableDirFs :=
    ⟨⟨by decide, by decide⟩, smallDirFs_layout.bootSector, smallDirFs_layout.blockLen,
      smallDirFs_layout.inodeLen, smallDirFs_layout.blockMap_le, smallDirFs_layout.inodeMap_lt,
      smallDirFs_layout.table_le, smallDirFs_layout.data_le, by decide⟩
  have h12 : blockRef tableDirFs.disk (tableDirFs.inodes 0) 12 = 615 := tableDirFs_ref 12
  have hat : FirstCarrier tableDirFs.disk (tableDirFs.inodes 0) 2 12 0 := by
    refine ⟨by decide, by rw [h12]; decide, by decide, ?_, fun j hj hne i hi => ?_,
      fun i hi => absurd hi (Nat.not_lt_zero i)⟩
    · rw [h12]
      show Carries tableDirDisk 2 615 0
      decide +kernel
    · have hfirst : ∀ i, i < slotsPerBlock → ¬ Carries tableDirDisk 2 613 i := by decide +kernel
      rw [tableDirFs_ref] at hne ⊢
      by_cases h0 : j = 0
      · rw [if_pos h0]
        exact hfirst i hi
      · rw [if_neg h0, if_neg (by omega), if_neg (by omega)] at hne
        exact absurd rfl hne
  rcases returnOk_of_deleteReturns hs tableDirFs_dirRep hat (h _ 0 2 hs tableDirFs_dirRep) with
    ⟨j, -, hj, -⟩ | ⟨-, hk | ⟨hnd, -⟩⟩
  · exact Nat.not_lt_zero j hj
  · exact absurd hk (by decide)
  · exact absurd hnd (by decide)

end Fs
end JackOS
