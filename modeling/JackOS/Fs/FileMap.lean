/-
  JackOS.Fs.FileMap

  The block map of file_write: what allocating a run of blocks does to the
  bitmap and to `all_blocks_lba`, and what the four ways of building the map
  leave in the inode's sector pointers.  Every allocation is a growth of the
  ledger of pointers; the one case that is not an extension is the write that
  crosses from the direct blocks into the indirect ones, where the direct
  blocks it allocates are marked but never recorded.
-/

import JackOS.Fs.Contents
import JackOS.Fs.File

namespace JackOS
namespace Fs

open Base

/-! ## Runs of array entries -/

/-- `g` with the `left` entries from `idx` on replaced by those of `f`. -/
def overlay (idx left : Nat) (f g : Nat → Nat) : Nat → Nat :=
  fun k => if idx ≤ k ∧ k < idx + left then f k else g k

theorem overlay_inside {idx left k : Nat} {f g : Nat → Nat} (h₁ : idx ≤ k)
    (h₂ : k < idx + left) : overlay idx left f g k = f k := by
  rw [overlay, if_pos ⟨h₁, h₂⟩]

theorem overlay_outside {idx left k : Nat} {f g : Nat → Nat} (h : k < idx ∨ idx + left ≤ k) :
    overlay idx left f g k = g k := by
  rw [overlay, if_neg (by omega)]

@[simp] theorem overlay_zero (idx : Nat) (f g : Nat → Nat) : overlay idx 0 f g = g := by
  funext k
  exact overlay_outside (by omega)

/-- A run of `left + 1` entries is its first entry and the rest. -/
theorem overlay_succ (idx left lba : Nat) (f g : Nat → Nat) :
    overlay (idx + 1) left f (Function.update g idx lba)
      = overlay idx (left + 1) (Function.update f idx lba) g := by
  funext k
  by_cases hk : k = idx
  · subst hk
    rw [overlay_outside (by omega), overlay_inside (by omega) (by omega), Function.update_self,
      Function.update_self]
  · by_cases hin : idx + 1 ≤ k ∧ k < idx + 1 + left
    · rw [overlay_inside hin.1 hin.2, overlay_inside (by omega) (by omega),
        Function.update_of_ne hk]
    · rw [overlay_outside (by omega), overlay_outside (by omega), Function.update_of_ne hk]

/-! ## Allocating a run of blocks -/

/-- The free blocks lie on the disk. -/
def FreeOnDisk (s : FsState) : Prop :=
  ∀ b, b < blockBits s → bitAt s.part.blockBitmap.bits b = false →
    s.part.sb.dataStartLba + b ≤ maxLba

/-- A block that was free lies on the disk. -/
theorem FreeOnDisk.le_of_fresh {s t : FsState} (h : FreeOnDisk s) {lba : Nat}
    (hsb : t.part.sb = s.part.sb) (hbits : blockBits t = blockBits s)
    (ht : lba ∈ usedBlocks t) (hs : lba ∉ usedBlocks s) : lba ≤ maxLba := by
  obtain ⟨b, hb, rfl, -⟩ := ht
  rw [hsb] at hs ⊢
  rw [hbits] at hb
  refine h b hb ?_
  by_contra hset
  exact hs (mem_usedBlocks.2 ⟨hb, by simpa using hset⟩)

/-- A growth of a file's pointers keeps them on the disk. -/
theorem FreeOnDisk.le_of_grows {s t : FsState} (h : FreeOnDisk s) {ref ref' : Nat → Nat}
    (hsb : t.part.sb = s.part.sb) (hbits : blockBits t = blockBits s)
    (hg : Ledger.Grows ref (usedBlocks s) ref' (usedBlocks t)) (hdisk : ∀ j, ref j ≤ maxLba)
    (j : Nat) : ref' j ≤ maxLba := by
  by_cases hz : ref j = 0
  · by_cases hz' : ref' j = 0
    · omega
    · exact h.le_of_fresh hsb hbits (hg.mem j hz hz') (hg.fresh j hz hz')
  · exact hg.old j hz ▸ hdisk j

/-- The free blocks stay on the disk while blocks are taken. -/
theorem FreeOnDisk.mono {s t : FsState} (h : FreeOnDisk s) (hsb : t.part.sb = s.part.sb)
    (hbits : blockBits t = blockBits s) (hsub : usedBlocks s ⊆ usedBlocks t) : FreeOnDisk t := by
  intro b hb hclear
  rw [hbits] at hb
  rw [hsb]
  refine h b hb ?_
  by_contra hset
  have hmem := hsub (mem_usedBlocks.2 ⟨hb, by simpa using hset⟩)
  rw [← hsb, mem_usedBlocks] at hmem
  rw [hmem.2] at hclear
  cases hclear

theorem FsState.setInode_self (s : FsState) (p : Nat) : s.setInode p (s.inodes p) = s := by
  simp [FsState.setInode, Function.update_eq_self]

theorem setSector_eq_ok {s t : FsState} {p j lba : Nat} :
    setSector s p j lba = .ok t ↔ j < 13 ∧ t = s.setInode p
      ((s.inodes p).withSectors (Function.update (s.inodes p).iSectors j lba)) := by
  unfold setSector
  by_cases hj : j < 13
  · simp only [hj, if_true, Except.ok.injEq, true_and]
    exact eq_comm
  · simp [hj]

theorem FsState.setInode_setInode (s : FsState) (p : Nat) (ino ino' : Inode) :
    (s.setInode p ino).setInode p ino' = s.setInode p ino' := by
  simp [FsState.setInode, Function.update_idem]

/-- The inode with its sector pointers replaced, when they are recorded. -/
def Inode.recorded (ino : Inode) (r : Bool) (sec : Nat → Nat) : Inode :=
  if r then ino.withSectors sec else ino

/-- What one round of an allocation loop does: one free block goes into entry
    `blockIdx`, and into `i_sectors` when `record` says so. -/
theorem allocBlock_some {record : Nat → Bool} {p blockIdx : Nat} {all all' : Nat → Nat}
    {s t : FsState} (hs : Layout s)
    (h : allocBlock record p blockIdx all s = .ok (some all', t)) :
    ∃ b, FirstClear s.part.blockBitmap b ∧
      all' = Function.update all blockIdx (s.part.sb.dataStartLba + b) ∧
      t = (putBlockBit s b true).setInode p
        ((s.inodes p).recorded (record (s.part.sb.dataStartLba + b))
          (Function.update (s.inodes p).iSectors blockIdx (s.part.sb.dataStartLba + b))) := by
  unfold allocBlock at h
  obtain ⟨⟨lba, s₁⟩, halloc, h⟩ := Outcome.bind_eq_ok.1 h
  rcases lba with _ | lba
  · cases h
  · obtain ⟨b, hb, rfl, rfl⟩ := blockBitmapAlloc_some halloc
    have hsub := hs.subU32_lba hb.lt
    refine ⟨b, hb, ?_⟩
    obtain ⟨s₂, hrec, h⟩ := Outcome.bind_eq_ok.1 h
    obtain ⟨s₃, hsync, h⟩ := Outcome.bind_eq_ok.1 h
    cases h
    unfold recordBlock at hrec
    split at hrec
    · rename_i hr
      obtain ⟨_, -, hset⟩ := Outcome.bind_eq_ok.1 hrec
      obtain ⟨-, rfl⟩ := setSector_eq_ok.1 hset
      simp only [FsState.setInode_part, setBlockBit_sb, hsub] at hsync
      obtain ⟨-, rfl⟩ := bitmapSync_block_eq_ok.1 hsync
      exact ⟨rfl, by rw [Inode.recorded, if_pos hr]; rfl⟩
    · rename_i hr
      cases hrec
      simp only [setBlockBit_sb, hsub] at hsync
      obtain ⟨-, rfl⟩ := bitmapSync_block_eq_ok.1 hsync
      refine ⟨rfl, ?_⟩
      rw [Inode.recorded, if_neg hr, ← putBlockBit]
      exact ((putBlockBit s b true).setInode_self p).symm

/-- While a bit is free, a round succeeds. -/
theorem allocBlock_of_free {record : Nat → Bool} {p blockIdx : Nat} {all : Nat → Nat}
    {s : FsState} {b : Nat} (hs : Layout s) (hfree : b ∈ freeBits s)
    (hrec : ∀ lba, s.part.sb.dataStartLba ≤ lba → record lba = true →
      blockIdx < 13 ∧ (s.inodes p).iSectors blockIdx = 0) :
    ∃ all' t, allocBlock record p blockIdx all s = .ok (some all', t) := by
  obtain ⟨k, hk, halloc⟩ := blockBitmapAlloc_of_free hfree
  have hsub := hs.subU32_lba hk.lt
  have hl : Layout (setBlockBit s k true) := hs.take k s.disk
  simp only [allocBlock, halloc, Outcome.ok_bind, recordBlock]
  by_cases hr : record (s.part.sb.dataStartLba + k) = true
  · obtain ⟨hj, hzero⟩ := hrec _ (by omega) hr
    have hassert : kassert (setBlockBit s k true)
        (((setBlockBit s k true).inodes p).iSectors blockIdx = 0) = .ok () := kassert_pos hzero
    simp only [if_pos hr, hassert, setSector, if_pos hj, Outcome.ok_bind, FsState.setInode_part,
      setBlockBit_sb, hsub, (hl.setInode p _).bitmapSync_block (b := k) hk.lt]
    exact ⟨_, _, rfl⟩
  · simp only [if_neg hr, Outcome.ok_bind, setBlockBit_sb, hsub, hl.bitmapSync_block hk.lt]
    exact ⟨_, _, rfl⟩

/-! ## A whole run -/

/-- The run of allocations that filled entries `idx..idx+left-1` of
    `all_blocks_lba` with `f`, recording them in the inode when `r` says so. -/
structure AllocRun (s t : FsState) (p idx left : Nat) (r : Bool) (f : Nat → Nat) : Prop where
  state : ∃ bits d, t = (s.setBlocks bits d).setInode p
    ((s.inodes p).recorded r (overlay idx left f (s.inodes p).iSectors))
  layout : Layout t
  extends_ : ∀ ref, (∀ k, idx ≤ k → k < idx + left → ref k = 0) →
    Ledger.Extends ref (usedBlocks s) (overlay idx left f ref) (usedBlocks t)
  mem : ∀ k, idx ≤ k → k < idx + left → f k ∈ usedBlocks t
  head : 0 < left → ∃ b, FirstClear s.part.blockBitmap b ∧ f idx = s.part.sb.dataStartLba + b
  disk_out : ∀ a, ¬ inBlockMap s a → t.disk a = s.disk a
  synced : ∀ P, BlockMapSyncedOn s P → BlockMapSyncedOn t (fun i => P i ∨
    ∃ k, idx ≤ k ∧ k < idx + left ∧ i = (f k - s.part.sb.dataStartLba) / 4096)
  card : (freeBits t).card + left = (freeBits s).card

/-- The empty run. -/
theorem AllocRun.refl {s : FsState} (hs : Layout s) (p idx : Nat) (r : Bool) (f : Nat → Nat) :
    AllocRun s s p idx 0 r f where
  state := by
    refine ⟨s.part.blockBitmap.bits, s.disk, ?_⟩
    have hrec : (s.inodes p).recorded r (overlay idx 0 f (s.inodes p).iSectors) = s.inodes p := by
      rw [overlay_zero, Inode.recorded]
      split <;> rfl
    rw [hrec]
    exact (s.setInode_self p).symm
  layout := hs
  extends_ ref _ := by
    rw [overlay_zero]
    exact Ledger.Extends.refl _ _
  mem k h₁ h₂ := by omega
  head h := by omega
  disk_out _ _ := rfl
  synced P h := h.mono fun i hi => hi.resolve_right (by rintro ⟨k, h₁, h₂, -⟩; omega)
  card := rfl

/-- One round before a run. -/
theorem AllocRun.cons {s t : FsState} {p idx left b : Nat} {r : Bool} {f : Nat → Nat}
    (hs : Layout s) (hb : FirstClear s.part.blockBitmap b)
    (h : AllocRun ((putBlockBit s b true).setInode p
      ((s.inodes p).recorded r (Function.update (s.inodes p).iSectors idx
        (s.part.sb.dataStartLba + b)))) t p (idx + 1) left r f) :
    AllocRun s t p idx (left + 1) r (Function.update f idx (s.part.sb.dataStartLba + b)) where
  state := by
    obtain ⟨bits, d, rfl⟩ := h.state
    refine ⟨bits, d, ?_⟩
    rw [← overlay_succ]
    simp only [FsState.setInode, Function.update_self, Inode.recorded]
    cases r <;> simp [FsState.setBlocks, putBlockBit_eq]
  layout := h.layout
  extends_ ref href := by
    have hone : Ledger.Extends ref (usedBlocks s)
        (Function.update ref idx (s.part.sb.dataStartLba + b))
        (usedBlocks (putBlockBit s b true)) :=
      Ledger.extends_single idx _ (href idx (by omega) (by omega)) (not_mem_usedBlocks hb.clear)
        (by have := hs.table_le; omega) (mem_usedBlocks_setBlocks hb.lt _)
    have hrest := h.extends_ (Function.update ref idx (s.part.sb.dataStartLba + b))
      (fun k h₁ h₂ => by
        rw [Function.update_of_ne (by omega)]
        exact href k (by omega) (by omega))
    rw [overlay_succ] at hrest
    exact hone.trans hrest
  mem k h₁ h₂ := by
    by_cases hk : k = idx
    · subst hk
      rw [Function.update_self]
      have hrest := (h.extends_ (fun _ => 0) (fun _ _ _ => rfl)).mono
      rw [usedBlocks_setInode, putBlockBit_eq] at hrest
      exact hrest ((mem_usedBlocks_setBlocks hb.lt _ _).2 (.inr rfl))
    · rw [Function.update_of_ne hk]
      exact h.mem k (by omega) (by omega)
  head _ := ⟨b, hb, Function.update_self _ _ _⟩
  disk_out a ha := (h.disk_out a ha).trans (hs.putBlockBit_outside hb.lt true ha)
  synced P hP := by
    refine (h.synced _ ((hP.putBlockBit b true).setInode p _)).mono fun i hi => ?_
    rcases hi with hi | ⟨k, h₁, h₂, rfl⟩
    · exact .inl (.inl hi)
    · by_cases hk : k = idx
      · subst hk
        refine .inl (.inr ?_)
        rw [Function.update_self]
        congr 1
        omega
      · rw [Function.update_of_ne hk]
        exact .inr ⟨k, by omega, by omega, rfl⟩
  card := by
    have hone := card_freeBits_setBlocks hb.lt hb.clear
      (syncedBlockMap (setBlockBit s b true) b)
    have hrest := h.card
    rw [freeBits_setInode, putBlockBit_eq] at hrest
    omega

/-- The allocation loop, when every block is recorded or none is. -/
theorem allocBlocks_run {record : Nat → Bool} {p left idx : Nat} {all all' : Nat → Nat}
    {s t : FsState} {r : Bool} (hs : Layout s)
    (hr : ∀ lba, s.part.sb.dataStartLba ≤ lba → record lba = r)
    (h : allocBlocks record p left idx all s = .ok (some all', t)) :
    ∃ f, AllocRun s t p idx left r f ∧ all' = overlay idx left f all := by
  induction left generalizing idx all s with
  | zero =>
      cases h
      exact ⟨fun _ => 0, AllocRun.refl hs p idx r _, (overlay_zero _ _ _).symm⟩
  | succ left ih =>
      rw [allocBlocks] at h
      obtain ⟨⟨all₁, s₁⟩, hone, h⟩ := Outcome.bind_eq_ok.1 h
      rcases all₁ with _ | all₁
      · cases h
      · obtain ⟨b, hb, rfl, rfl⟩ := allocBlock_some hs hone
        rw [hr _ (by omega)] at h
        obtain ⟨f, hrun, rfl⟩ := ih ((hs.take b _).setInode p _) hr h
        exact ⟨_, hrun.cons hs hb, overlay_succ _ _ _ _ _⟩

/-- Enough free blocks, and room in the inode for those recorded, make the loop
    succeed. -/
theorem allocBlocks_of_free {record : Nat → Bool} {p left idx : Nat} {all : Nat → Nat}
    {s : FsState} {r : Bool} (hs : Layout s) (hfree : left ≤ (freeBits s).card)
    (hr : ∀ lba, s.part.sb.dataStartLba ≤ lba → record lba = r)
    (hrec : r = true → idx + left ≤ 13 ∧
      ∀ k, idx ≤ k → k < idx + left → (s.inodes p).iSectors k = 0) :
    ∃ all' t, allocBlocks record p left idx all s = .ok (some all', t) := by
  induction left generalizing idx all s with
  | zero => exact ⟨all, s, rfl⟩
  | succ left ih =>
      obtain ⟨b₀, hb₀⟩ := Finset.card_pos.1 (show 0 < (freeBits s).card by omega)
      obtain ⟨all₁, s₁, hone⟩ : ∃ all₁ s₁, allocBlock record p idx all s = .ok (some all₁, s₁) := by
        refine allocBlock_of_free hs hb₀ fun lba hlba hlr => ?_
        obtain ⟨hle, hz⟩ := hrec ((hr lba hlba).symm.trans hlr)
        exact ⟨by omega, hz idx (by omega) (by omega)⟩
      obtain ⟨b, hb, -, hs₁⟩ := allocBlock_some hs hone
      rw [hr _ (by omega)] at hs₁
      have hcard := card_freeBits_setBlocks hb.lt hb.clear (syncedBlockMap (setBlockBit s b true) b)
      obtain ⟨all', t, hrest⟩ : ∃ all' t,
          allocBlocks record p left (idx + 1) all₁ s₁ = .ok (some all', t) := by
        refine ih (hs₁ ▸ (hs.take b _).setInode p _) ?_ (by rw [hs₁]; exact hr) fun h => ?_
        · rw [hs₁, freeBits_setInode, putBlockBit_eq]
          omega
        · obtain ⟨hle, hz⟩ := hrec h
          refine ⟨by omega, fun k h₁ h₂ => ?_⟩
          rw [hs₁, h]
          simp only [FsState.setInode_inodes, Function.update_self, Inode.recorded, if_true,
            Inode.withSectors_iSectors]
          rw [Function.update_of_ne (by omega)]
          exact hz k (by omega) (by omega)
      exact ⟨all', t, by rw [allocBlocks, hone]; exact hrest⟩

/-! ## Writing the table -/

/-- The disk with entries 12..139 of `all` in sector `table`. -/
def writtenTable (d : Mem) (table : Nat) (all : Nat → Nat) : Mem :=
  d.copy (table * 512) (Mem.wordBytes all) 48 512

theorem ideWriteWords_eq_ok {s t : FsState} {table : Nat} {all : Nat → Nat}
    (h : ideWriteWords s table all 12 = .ok t) :
    t = s.setDisk (writtenTable s.disk table all) := by
  unfold ideWriteWords ideWrite at h
  obtain ⟨_, -, h⟩ := Outcome.bind_eq_ok.1 h
  obtain ⟨_, -, h⟩ := Outcome.bind_eq_ok.1 h
  cases h
  rfl

theorem ideReadWords_eq_ok {s : FsState} {lba : Nat} {arr all : Nat → Nat}
    (h : ideReadWords s lba arr 12 = .ok all) :
    all = overlay 12 128 (fun k => s.disk.le32 (lba * 512 + 4 * (k - 12))) arr := by
  unfold ideReadWords at h
  obtain ⟨_, -, h⟩ := Outcome.bind_eq_ok.1 h
  cases h
  rfl

theorem writtenTable_outside {d : Mem} {table a : Nat} {all : Nat → Nat}
    (h : ¬ inBlock table a) : writtenTable d table all a = d a := by
  refine Mem.copy_outside ?_
  unfold inBlock at h
  omega

/-- Reading an entry of the table back. -/
theorem le32_writtenTable (d : Mem) (table : Nat) (all : Nat → Nat) {j : Nat} (h₁ : 12 ≤ j)
    (h₂ : j < 140) :
    (writtenTable d table all).le32 (table * 512 + 4 * (j - 12)) = all j % 2 ^ 32 := by
  rw [← Mem.le32_wordBytes all j]
  refine Mem.le32_congr fun i hi => ?_
  rw [writtenTable, Mem.copy_inside (by omega) (by omega)]
  exact congrArg _ (by omega)

theorem blockRef_writtenTable {d : Mem} {ino : Inode} {all : Nat → Nat} {j : Nat}
    (ht : ino.iSectors 12 ≠ 0) (h₁ : 12 ≤ j) (h₂ : j < 140) (hlt : all j < 2 ^ 32) :
    blockRef (writtenTable d (ino.iSectors 12) all) ino j = all j := by
  rw [blockRef_indirect h₁ h₂ ht, le32_writtenTable _ _ _ h₁ h₂, Nat.mod_eq_of_lt hlt]

/-! ## The first block -/

/-- What file_write starts from: a file that was written before, or one without
    any block. -/
structure WritePre (s : FsState) (p : Nat) : Prop where
  layout : Layout s
  sound : Ledger.Sound (blockRef s.disk (s.inodes p)) (usedBlocks s)
  shape : FileShape s.disk (s.inodes p) ∨
    (s.inodes p).iSize = 0 ∧ ∀ j, blockRef s.disk (s.inodes p) j = 0

/-- The file has its first block afterwards. -/
structure FirstRun (s t : FsState) (p : Nat) : Prop where
  state : ∃ bits d sec, t = (s.setBlocks bits d).setInode p ((s.inodes p).withSectors sec)
  layout : Layout t
  extends_ : Ledger.Extends (blockRef s.disk (s.inodes p)) (usedBlocks s)
    (blockRef t.disk (t.inodes p)) (usedBlocks t)
  shape : FileShape t.disk (t.inodes p)
  disk_out : ∀ a, ¬ inBlockMap s a → t.disk a = s.disk a
  synced : BlockMapSynced s → BlockMapSynced t
  bitmap : if (s.inodes p).iSectors 0 = 0 then ∃ b, FirstClear s.part.blockBitmap b ∧
      t.part.blockBitmap = bitmapSet s.part.blockBitmap b true
    else t.part.blockBitmap = s.part.blockBitmap
  card : (freeBits s).card ≤ (freeBits t).card + if (s.inodes p).iSectors 0 = 0 then 1 else 0

/-- A file that has no block has no sector pointers at all. -/
theorem iSectors_of_unwritten {d : Mem} {ino : Inode} (h : ∀ j, blockRef d ino j = 0) :
    ∀ j, j < 13 → ino.iSectors j = 0 := by
  intro j hj
  by_cases hj12 : j = 12
  · rw [hj12, ← blockRef_table d ino]
    exact h 140
  · rw [← blockRef_direct (d := d) (by omega)]
    exact h j

theorem firstBlock_run {s t : FsState} {p : Nat} (hpre : WritePre s p)
    (h : firstBlock p s = .ok (true, t)) : FirstRun s t p := by
  unfold firstBlock at h
  by_cases h0 : (s.inodes p).iSectors 0 = 0
  · rw [if_pos h0] at h
    obtain ⟨hsize, hzero⟩ := hpre.shape.resolve_left (fun hs => hs.first h0)
    obtain ⟨⟨lba, s₁⟩, halloc, h⟩ := Outcome.bind_eq_ok.1 h
    rcases lba with _ | lba
    · cases h
    obtain ⟨b, hb, rfl, rfl⟩ := blockBitmapAlloc_some halloc
    obtain ⟨s₂, hset, h⟩ := Outcome.bind_eq_ok.1 h
    obtain ⟨_, -, h⟩ := Outcome.bind_eq_ok.1 h
    obtain ⟨s₃, hsync, h⟩ := Outcome.bind_eq_ok.1 h
    cases h
    obtain ⟨-, rfl⟩ := setSector_eq_ok.1 hset
    simp only [FsState.setInode_part, setBlockBit_sb, hpre.layout.subU32_lba hb.lt] at hsync
    obtain ⟨-, ht⟩ := bitmapSync_block_eq_ok.1 hsync
    replace ht : t = (putBlockBit s b true).setInode p ((s.inodes p).withSectors
        (Function.update (s.inodes p).iSectors 0 (s.part.sb.dataStartLba + b))) := ht
    have hdata := hpre.layout.table_le
    have hsec : (t.inodes p).iSectors
        = Function.update (s.inodes p).iSectors 0 (s.part.sb.dataStartLba + b) := by
      rw [ht]
      simp
    have hsize' : (t.inodes p).iSize = 0 := by
      rw [ht, ← hsize]
      simp
    have hsec0 := iSectors_of_unwritten hzero
    have href : blockRef t.disk (t.inodes p) = Function.update (blockRef s.disk (s.inodes p)) 0
        (s.part.sb.dataStartLba + b) := by
      funext j
      have h12 : (t.inodes p).iSectors 12 = 0 := by
        rw [hsec, Function.update_of_ne (by omega), hsec0 12 (by omega)]
      by_cases hj : j < 12
      · rw [blockRef_direct hj, hsec]
        by_cases hj0 : j = 0
        · rw [hj0, Function.update_self, Function.update_self]
        · rw [Function.update_of_ne hj0, Function.update_of_ne hj0, blockRef_direct hj]
      · rw [blockRef_noTable (by omega) h12, Function.update_of_ne (by omega), hzero j]
    have hused : usedBlocks t = usedBlocks (putBlockBit s b true) := by
      rw [ht, usedBlocks_setInode]
    refine ⟨⟨_, _, _, ht⟩, ht ▸ (hpre.layout.take b _).setInode p _, ?_, ⟨?_, ?_, ?_, ?_⟩, ?_, ?_,
      ?_, ?_⟩
    · rw [href, hused]
      exact Ledger.extends_single 0 _ (hzero 0) (not_mem_usedBlocks hb.clear) (by omega)
        (mem_usedBlocks_setBlocks hb.lt _)
    · rw [hsec, Function.update_self]
      omega
    · rw [href, hsize', Nat.zero_div, Function.update_self]
      omega
    · intro j hj _
      rw [hsize'] at hj
      rw [href, Function.update_of_ne (by omega), hzero j]
    · rw [hsec, hsize', Function.update_of_ne (by omega), hsec0 12 (by omega)]
      simp
    · intro a ha
      rw [ht]
      exact hpre.layout.putBlockBit_outside hb.lt true ha
    · intro hsyn
      rw [ht]
      exact ((hsyn.putBlockBit b true).setInode p _).mono (fun _ _ => .inl trivial)
    · rw [if_pos h0, ht]
      exact ⟨b, hb, rfl⟩
    · rw [if_pos h0, ht, freeBits_setInode, putBlockBit_eq,
        card_freeBits_setBlocks hb.lt hb.clear]
  · rw [if_neg h0] at h
    cases h
    have hshape := hpre.shape.resolve_right (fun hu => h0 (iSectors_of_unwritten hu.2 0 (by omega)))
    exact ⟨⟨s.part.blockBitmap.bits, s.disk, (s.inodes p).iSectors, (s.setInode_self p).symm⟩,
      hpre.layout, Ledger.Extends.refl _ _, hshape, fun _ _ => rfl, id,
      by rw [if_neg h0], by omega⟩

/-! ## Building the map -/

/-- The first two free bits of the map share a sector. -/
def NextInSector (btmp : Bitmap) : Prop :=
  ∀ b b', FirstClear btmp b → FirstClear (bitmapSet btmp b true) b' → b / 4096 = b' / 4096

/-- What file_write starts from when it builds the map of node `p`: the file's
    last block is there and the write ends in block `will - 1`. -/
structure MapPre (s : FsState) (p used will : Nat) : Prop where
  layout : Layout s
  sound : Ledger.Sound (blockRef s.disk (s.inodes p)) (usedBlocks s)
  shape : FileShape s.disk (s.inodes p)
  used_eq : used = (s.inodes p).iSize / 512 + 1
  used_le : used ≤ will
  will_le : will ≤ 140

/-- What the map and the file's pointers are afterwards. -/
structure MapRun (s t : FsState) (p used will : Nat) (all : Nat → Nat) : Prop where
  state : ∃ bits d sec, t = (s.setBlocks bits d).setInode p ((s.inodes p).withSectors sec)
  layout : Layout t
  grows : Ledger.Grows (blockRef s.disk (s.inodes p)) (usedBlocks s)
    (blockRef t.disk (t.inodes p)) (usedBlocks t)
  extends_ : (12 < will → 12 ≤ used) → Ledger.Extends (blockRef s.disk (s.inodes p))
    (usedBlocks s) (blockRef t.disk (t.inodes p)) (usedBlocks t)
  -- blocks of the map are the file's, except those the crossing write loses
  map : ∀ k, used ≤ k + 1 → k < will → all k ∈ usedBlocks t ∧
    (all k = blockRef t.disk (t.inodes p) k ∨
      used ≤ k ∧ k < 12 ∧ 12 < will ∧ all k ∉ usedBlocks s ∧
        ∀ j, blockRef t.disk (t.inodes p) j ≠ all k)
  inj : ∀ i k, used ≤ i + 1 → i < k → k < will → all i ≠ all k
  tail : ∀ j, will ≤ j → j < 140 → blockRef t.disk (t.inodes p) j = 0
  lost : ∀ j, used ≤ j → j < 12 → 12 < will → blockRef t.disk (t.inodes p) j = 0
  table : (t.inodes p).iSectors 12 ≠ 0 ↔ 12 < will
  disk_out : ∀ a, ¬ inBlockMap s a → (12 < will → ¬ inBlock ((t.inodes p).iSectors 12) a) →
    t.disk a = s.disk a
  synced : BlockMapSynced s → (used ≤ 12 → 12 < will → NextInSector s.part.blockBitmap) →
    BlockMapSynced t

section

variable {s t : FsState} {p used will : Nat} {all : Nat → Nat}

/-- A map whose entries are the file's blocks has different entries. -/
theorem inj_of_map {refs : Nat → Nat} {blocks : Set Nat} (hs : Layout s)
    (hblocks : usedBlocks s = blocks) (hsound : Ledger.Sound refs blocks)
    (hmap : ∀ k, used ≤ k + 1 → k < will → all k ∈ blocks ∧ all k = refs k) :
    ∀ i k, used ≤ i + 1 → i < k → k < will → all i ≠ all k := by
  intro i k h₁ h₂ h₃ heq
  obtain ⟨hi, hi'⟩ := hmap i h₁ (by omega)
  obtain ⟨-, hk'⟩ := hmap k (by omega) h₃
  have hne : refs i ≠ 0 := hi' ▸ hs.ne_zero (hblocks ▸ hi)
  have := hsound.inj i k hne (by rw [← hi', ← hk', heq])
  omega

/-- `add_blocks == 0` changes nothing; the map holds the file's last block. -/
theorem mapSameBlock_run (hpre : MapPre s p used used)
    (h : mapSameBlock p used used (fun _ => 0) s = .ok all) : MapRun s s p used used all where
  state := ⟨s.part.blockBitmap.bits, s.disk, (s.inodes p).iSectors, (s.setInode_self p).symm⟩
  layout := hpre.layout
  grows := (Ledger.Extends.refl _ _).toGrows
  extends_ _ := Ledger.Extends.refl _ _
  map k h₁ h₂ := by
    have hused := hpre.used_eq
    have hwill := hpre.will_le
    have hk : k = (s.inodes p).iSize / 512 := by omega
    have hall : all k = blockRef s.disk (s.inodes p) k := by
      unfold mapSameBlock at h
      split at h
      · cases h
        rw [blockRef_direct (by omega), show used - 1 = k by omega, Function.update_self]
      · obtain ⟨_, -, h⟩ := Outcome.bind_eq_ok.1 h
        have ht := hpre.shape.table.2 (by omega)
        rw [ideReadWords_eq_ok h, overlay_inside (by omega) (by omega),
          blockRef_indirect (by omega) (by omega) ht]
    refine ⟨hall ▸ hpre.sound.mem k ?_, .inl hall⟩
    rw [hk]
    exact hpre.shape.last
  inj i k h₁ h₂ h₃ := by omega
  tail j h₁ h₂ := hpre.shape.tail j (by have := hpre.used_eq; omega) h₂
  lost j h₁ h₂ h₃ := by omega
  table := by
    have hused := hpre.used_eq
    have ht := hpre.shape.table
    constructor
    · intro h
      have := ht.1 h
      omega
    · exact fun h => ht.2 (by omega)
  disk_out _ _ _ := rfl
  synced hsync _ := hsync

/-- Situation 1: the new blocks are appended to the direct ones. -/
theorem mapDirect_run (hpre : MapPre s p used will) (hwill : will ≤ 12)
    (h : mapDirect p used will (fun _ => 0) s = .ok (some all, t)) :
    MapRun s t p used will all := by
  have hused := hpre.used_eq
  have hle := hpre.used_le
  have hnotab : (s.inodes p).iSectors 12 = 0 := by
    by_contra hne
    have := hpre.shape.table.1 hne
    omega
  unfold mapDirect at h
  obtain ⟨_, -, h⟩ := Outcome.bind_eq_ok.1 h
  obtain ⟨f, hrun, rfl⟩ := allocBlocks_run (r := true) hpre.layout (fun _ _ => rfl) h
  obtain ⟨bits, d, hst⟩ := hrun.state
  have hsec : (t.inodes p).iSectors = overlay used (will - used) f (s.inodes p).iSectors := by
    rw [hst]
    simp [Inode.recorded]
  have href : blockRef t.disk (t.inodes p)
      = overlay used (will - used) f (blockRef s.disk (s.inodes p)) := by
    funext j
    by_cases hj : j < 12
    · simp only [blockRef_direct hj, hsec, overlay]
    · rw [overlay_outside (by omega), blockRef_noTable (by omega) hnotab,
        blockRef_noTable (by omega)]
      rw [hsec, overlay_outside (by omega), hnotab]
  have hext := hrun.extends_ (blockRef s.disk (s.inodes p))
    (fun k h₁ h₂ => hpre.shape.tail k (by omega) (by omega))
  have hmap : ∀ k, used ≤ k + 1 → k < will →
      overlay used (will - used) f
          (Function.update (fun _ => 0) (used - 1) ((s.inodes p).iSectors (used - 1))) k
        ∈ usedBlocks t ∧
      overlay used (will - used) f
          (Function.update (fun _ => 0) (used - 1) ((s.inodes p).iSectors (used - 1))) k
        = blockRef t.disk (t.inodes p) k := by
    intro k h₁ h₂
    rw [href]
    by_cases hk : used ≤ k
    · rw [overlay_inside hk (by omega), overlay_inside hk (by omega)]
      exact ⟨hrun.mem k hk (by omega), rfl⟩
    · have hk' : k = used - 1 := by omega
      rw [overlay_outside (by omega), overlay_outside (by omega), hk', Function.update_self,
        blockRef_direct (by omega)]
      have hlast := hpre.shape.last
      rw [show (s.inodes p).iSize / 512 = used - 1 by omega] at hlast
      have hmem := hpre.sound.mem _ hlast
      rw [blockRef_direct (by omega)] at hmem
      exact ⟨hext.mono hmem, rfl⟩
  refine ⟨⟨bits, d, _, hst⟩, hrun.layout, ?_, ?_,
    ?_, ?_, ?_, ?_, ?_, ?_, ?_⟩
  · rw [href]
    exact hext.toGrows
  · intro _
    rw [href]
    exact hext
  · exact fun k h₁ h₂ => ⟨(hmap k h₁ h₂).1, .inl (hmap k h₁ h₂).2⟩
  · exact inj_of_map hrun.layout rfl (hpre.sound.grows (href ▸ hext.toGrows)) hmap
  · intro j h₁ h₂
    rw [href, overlay_outside (by omega)]
    exact hpre.shape.tail j (by omega) h₂
  · intro j _ _ h₃
    omega
  · rw [hsec, overlay_outside (by omega), hnotab]
    simp
    omega
  · exact fun a ha _ => hrun.disk_out a ha
  · exact fun hsync _ => (hrun.synced _ hsync).mono (fun _ _ => .inl trivial)

/-- Situation 3: the new blocks are appended to the table. -/
theorem mapIndirect_run (hpre : MapPre s p used will) (hused12 : 12 < used)
    (h : mapIndirect p used will (fun _ => 0) s = .ok (some all, t)) :
    MapRun s t p used will all := by
  have hused := hpre.used_eq
  have hle := hpre.used_le
  have hwill := hpre.will_le
  have htab : (s.inodes p).iSectors 12 ≠ 0 := hpre.shape.table.2 (by omega)
  unfold mapIndirect at h
  obtain ⟨_, -, h⟩ := Outcome.bind_eq_ok.1 h
  obtain ⟨all₀, hread, h⟩ := Outcome.bind_eq_ok.1 h
  obtain ⟨⟨all₁, s₁⟩, halloc, h⟩ := Outcome.bind_eq_ok.1 h
  rcases all₁ with _ | all₁
  · cases h
  obtain ⟨s₂, hwrite, h⟩ := Outcome.bind_eq_ok.1 h
  cases h
  have hall₀ := ideReadWords_eq_ok hread
  obtain ⟨f, hrun, rfl⟩ := allocBlocks_run (r := false) hpre.layout (fun _ _ => rfl) halloc
  have ht := ideWriteWords_eq_ok hwrite
  obtain ⟨bits, d, hst⟩ := hrun.state
  have hino : s₁.inodes p = s.inodes p := by
    rw [hst]
    simp [Inode.recorded]
  have hino' : t.inodes p = s.inodes p := by
    rw [ht]
    exact hino
  -- the old entries of the map are the file's pointers
  have hold : ∀ j, 12 ≤ j → j < 140 → all₀ j = blockRef s.disk (s.inodes p) j := by
    intro j h₁ h₂
    rw [hall₀, overlay_inside (by omega) (by omega), blockRef_indirect h₁ h₂ htab]
  have href : blockRef t.disk (t.inodes p)
      = overlay used (will - used) f (blockRef s.disk (s.inodes p)) := by
    funext j
    rw [hino']
    by_cases hj : 12 ≤ j ∧ j < 140
    · have hlt : overlay used (will - used) f all₀ j < 2 ^ 32 := by
        by_cases hin : used ≤ j ∧ j < used + (will - used)
        · rw [overlay_inside hin.1 hin.2]
          exact hrun.layout.lba_lt (hrun.mem j hin.1 hin.2)
        · rw [overlay_outside (by omega), hold j hj.1 hj.2, blockRef_indirect hj.1 hj.2 htab]
          exact Mem.le32_lt _ _
      rw [ht, FsState.setDisk_disk, blockRef_writtenTable htab hj.1 hj.2 hlt]
      simp only [overlay, hold j hj.1 hj.2]
    · rw [overlay_outside (by omega)]
      simp only [blockRef]
      split_ifs <;> first | rfl | omega
  have hext := hrun.extends_ (blockRef s.disk (s.inodes p))
    (fun k h₁ h₂ => hpre.shape.tail k (by omega) (by omega))
  have hused' : usedBlocks t = usedBlocks s₁ := by rw [ht, usedBlocks_setDisk]
  have htmem : (s.inodes p).iSectors 12 ∈ usedBlocks s := by
    have := hpre.sound.mem 140
    rw [blockRef_table] at this
    exact this htab
  have hmap : ∀ k, used ≤ k + 1 → k < will →
      overlay used (will - used) f all₀ k ∈ usedBlocks t ∧
      overlay used (will - used) f all₀ k = blockRef t.disk (t.inodes p) k := by
    intro k h₁ h₂
    rw [href, hused']
    by_cases hk : used ≤ k
    · rw [overlay_inside hk (by omega), overlay_inside hk (by omega)]
      exact ⟨hrun.mem k hk (by omega), rfl⟩
    · rw [overlay_outside (by omega), overlay_outside (by omega), hold k (by omega) (by omega)]
      refine ⟨hext.mono (hpre.sound.mem k ?_), rfl⟩
      rw [show k = (s.inodes p).iSize / 512 by omega]
      exact hpre.shape.last
  refine ⟨⟨bits, writtenTable s₁.disk ((s.inodes p).iSectors 12)
    (overlay used (will - used) f all₀), (s.inodes p).iSectors, ?_⟩, ?_, ?_, ?_, ?_, ?_, ?_, ?_,
    ?_, ?_, ?_⟩
  · rw [ht, hst]
    rfl
  · rw [ht]
    exact hrun.layout.setDisk _
  · rw [href, hused']
    exact hext.toGrows
  · intro _
    rw [href, hused']
    exact hext
  · exact fun k h₁ h₂ => ⟨(hmap k h₁ h₂).1, .inl (hmap k h₁ h₂).2⟩
  · exact inj_of_map (ht ▸ hrun.layout.setDisk _) rfl
      (hpre.sound.grows (href ▸ hused' ▸ hext.toGrows)) hmap
  · intro j h₁ h₂
    rw [href, overlay_outside (by omega)]
    exact hpre.shape.tail j (by omega) h₂
  · intro j h₁ h₂ _
    omega
  · rw [hino']
    exact ⟨fun _ => by omega, fun _ => htab⟩
  · intro a ha hblk
    rw [hino'] at hblk
    rw [ht, FsState.setDisk_disk, writtenTable_outside (hblk (by omega))]
    exact hrun.disk_out a ha
  · intro hsync _
    rw [ht]
    refine ((hrun.synced _ hsync).mono (fun _ _ => .inl trivial)).setDisk hrun.layout fun a ha => ?_
    refine writtenTable_outside fun hblk => hrun.layout.not_inBlockMap ?_ hblk ha
    have hsb : s₁.part.sb = s.part.sb := by rw [hst]; rfl
    rw [hsb]
    exact dataStart_le_of_mem htmem

/-- Situation 2: the table is allocated, and filled from entry 12 on; direct
    blocks allocated on the way are not recorded. -/
theorem mapCrossing_run (hpre : MapPre s p used will) (hused12 : used ≤ 12) (hwill12 : 12 < will)
    (h : mapCrossing p used will (fun _ => 0) s = .ok (some all, t)) :
    MapRun s t p used will all := by
  have hused := hpre.used_eq
  have hwill := hpre.will_le
  have hnotab : (s.inodes p).iSectors 12 = 0 := by
    by_contra hne
    have := hpre.shape.table.1 hne
    omega
  unfold mapCrossing at h
  obtain ⟨⟨lba, s₁⟩, halloc, h⟩ := Outcome.bind_eq_ok.1 h
  rcases lba with _ | table
  · cases h
  obtain ⟨b, hb, rfl, rfl⟩ := blockBitmapAlloc_some halloc
  obtain ⟨_, -, h⟩ := Outcome.bind_eq_ok.1 h
  obtain ⟨s₂, hset, h⟩ := Outcome.bind_eq_ok.1 h
  obtain ⟨-, hs₂⟩ := setSector_eq_ok.1 hset
  obtain ⟨⟨all₃, s₃⟩, hallocs, h⟩ := Outcome.bind_eq_ok.1 h
  rcases all₃ with _ | all₃
  · cases h
  obtain ⟨s₄, hwrite, h⟩ := Outcome.bind_eq_ok.1 h
  cases h
  have hdata := hpre.layout.table_le
  have hl₁ : Layout (setBlockBit s b true) := hpre.layout.take b s.disk
  have hl₂ : Layout s₂ := hs₂ ▸ hl₁.setInode p _
  obtain ⟨f, hrun, hall⟩ := allocBlocks_run (r := false) hl₂
    (fun lba hlba => by
      have : s₂.part.sb = s.part.sb := by rw [hs₂]; rfl
      rw [this] at hlba
      simp
      omega) hallocs
  have ht := ideWriteWords_eq_ok hwrite
  obtain ⟨bits, d, hst⟩ := hrun.state
  have hino₂ : s₂.inodes p = (s.inodes p).withSectors
      (Function.update (s.inodes p).iSectors 12 (s.part.sb.dataStartLba + b)) := by
    rw [hs₂, FsState.setInode_inodes, Function.update_self]
    rfl
  have hino : t.inodes p = (s.inodes p).withSectors
      (Function.update (s.inodes p).iSectors 12 (s.part.sb.dataStartLba + b)) := by
    rw [ht, ← hino₂]
    change s₃.inodes p = s₂.inodes p
    rw [hst]
    simp [Inode.recorded]
  have htab : (t.inodes p).iSectors 12 = s.part.sb.dataStartLba + b := by
    rw [hino, Inode.withSectors_iSectors, Function.update_self]
  have htabne : (t.inodes p).iSectors 12 ≠ 0 := by
    rw [htab]
    omega
  have hused' : usedBlocks t = usedBlocks s₃ := by rw [ht, usedBlocks_setDisk]
  -- the ledger in which every new block is recorded
  have hext : Ledger.Extends (blockRef s.disk (s.inodes p)) (usedBlocks s)
      (overlay used (will - used) f
        (Function.update (blockRef s.disk (s.inodes p)) 140 (s.part.sb.dataStartLba + b)))
      (usedBlocks t) := by
    have hone : Ledger.Extends (blockRef s.disk (s.inodes p)) (usedBlocks s)
        (Function.update (blockRef s.disk (s.inodes p)) 140 (s.part.sb.dataStartLba + b))
        (usedBlocks (setBlockBit s b true)) :=
      Ledger.extends_single 140 _ (by rw [blockRef_table, hnotab]) (not_mem_usedBlocks hb.clear)
        (by omega) (mem_usedBlocks_setBlocks hb.lt _)
    rw [hused']
    refine hone.trans ?_
    have hrest := hrun.extends_
      (Function.update (blockRef s.disk (s.inodes p)) 140 (s.part.sb.dataStartLba + b))
      (fun k h₁ h₂ => by
        rw [Function.update_of_ne (by omega)]
        exact hpre.shape.tail k (by omega) (by omega))
    rw [hs₂, usedBlocks_setInode] at hrest
    exact hrest
  have hsound := hpre.sound.grows hext.toGrows
  have hold : ∀ k, k + 1 = used → all k = blockRef s.disk (s.inodes p) k := by
    intro k hk
    rw [hall, overlay_outside (by omega), show k = used - 1 by omega, Function.update_self,
      blockRef_direct (by omega)]
  -- the pointers of the file afterwards
  have hdirect : ∀ j, j < 12 → blockRef t.disk (t.inodes p) j = blockRef s.disk (s.inodes p) j := by
    intro j hj
    rw [blockRef_direct hj, blockRef_direct hj, hino, Inode.withSectors_iSectors,
      Function.update_of_ne (by omega)]
  have hmap : ∀ j, used ≤ j → j < will → all j = f j := by
    intro j h₁ h₂
    rw [hall, overlay_inside h₁ (by omega)]
  have hmap₀ : ∀ j, 12 ≤ j → will ≤ j → all j = 0 := by
    intro j h₁ h₂
    rw [hall, overlay_outside (by omega), Function.update_of_ne (by omega)]
  have hindirect : ∀ j, 12 ≤ j → j < 140 → blockRef t.disk (t.inodes p) j = all j := by
    intro j h₁ h₂
    have hlt : all j < 2 ^ 32 := by
      by_cases hj : j < will
      · rw [hmap j (by omega) hj]
        exact hrun.layout.lba_lt (hrun.mem j (by omega) (by omega))
      · rw [hmap₀ j h₁ (by omega)]
        omega
    have hdisk : t.disk = writtenTable s₃.disk ((t.inodes p).iSectors 12) all := by
      rw [htab, ht]
      rfl
    rw [hdisk]
    exact blockRef_writtenTable htabne h₁ h₂ hlt
  have hzero : ∀ j, used ≤ j → j < 140 → blockRef s.disk (s.inodes p) j = 0 :=
    fun j h₁ h₂ => hpre.shape.tail j (by omega) h₂
  have hlost : ∀ j, used ≤ j → j < 12 → blockRef t.disk (t.inodes p) j = 0 := by
    intro j h₁ h₂
    rw [hdirect j h₂, hzero j h₁ (by omega)]
  have hrecorded : ∀ j, j < used ∨ 12 ≤ j → blockRef t.disk (t.inodes p) j
      = overlay used (will - used) f
        (Function.update (blockRef s.disk (s.inodes p)) 140 (s.part.sb.dataStartLba + b)) j := by
    intro j hj
    by_cases h₁ : j < used
    · rw [overlay_outside (by omega), Function.update_of_ne (by omega), hdirect j (by omega)]
    · by_cases h₂ : j < 140
      · rw [hindirect j (by omega) h₂]
        by_cases h₃ : j < will
        · rw [hmap j (by omega) h₃, overlay_inside (by omega) (by omega)]
        · rw [hmap₀ j (by omega) (by omega), overlay_outside (by omega),
            Function.update_of_ne (by omega), hzero j (by omega) h₂]
      · rw [overlay_outside (by omega)]
        by_cases h₃ : j = 140
        · rw [h₃, blockRef_table, htab, Function.update_self]
        · rw [Function.update_of_ne h₃, blockRef_past (by omega), blockRef_past (by omega)]
  refine ⟨⟨bits, writtenTable s₃.disk (s.part.sb.dataStartLba + b) all,
    Function.update (s.inodes p).iSectors 12 (s.part.sb.dataStartLba + b), ?_⟩, ?_, ?_, ?_, ?_, ?_,
    ?_, fun j h₁ h₂ _ => hlost j h₁ h₂, ⟨fun _ => hwill12, fun _ => htabne⟩, ?_, ?_⟩
  · have hst' : s₃ = (s.setBlocks bits d).setInode p ((s.inodes p).withSectors
        (Function.update (s.inodes p).iSectors 12 (s.part.sb.dataStartLba + b))) := by
      rw [hst, hino₂, hs₂]
      exact FsState.setInode_setInode (s.setBlocks bits d) p _ _
    rw [ht, hst']
    rfl
  · rw [ht]
    exact hrun.layout.setDisk _
  · refine hext.toGrows.forget fun j => ?_
    by_cases hj : used ≤ j ∧ j < 12
    · exact .inr ⟨hzero j hj.1 (by omega), hlost j hj.1 hj.2⟩
    · exact .inl (hrecorded j (by omega))
  · intro h12
    have heq : blockRef t.disk (t.inodes p) = _ := funext fun j => hrecorded j (by have := h12 hwill12; omega)
    rw [heq]
    exact hext
  · intro k h₁ h₂
    by_cases hk : used ≤ k
    · rw [hmap k hk h₂, hused']
      have hmem := hrun.mem k hk (by omega)
      refine ⟨hmem, ?_⟩
      by_cases hk12 : k < 12
      · have hfresh := hext.fresh k (hzero k hk (by omega))
        rw [overlay_inside hk (by omega)] at hfresh
        refine .inr ⟨hk, hk12, hwill12, hfresh (hrun.layout.ne_zero hmem), fun j heq => ?_⟩
        by_cases hj : j < used ∨ 12 ≤ j
        · have hj' := hrecorded j hj
          have := hsound.inj k j
            (by rw [overlay_inside hk (by omega)]; exact hrun.layout.ne_zero hmem)
            (by rw [← hj', heq, overlay_inside hk (by omega)])
          omega
        · exact hrun.layout.ne_zero hmem (by rw [← heq, hlost j (by omega) (by omega)])
      · exact .inl (by rw [hindirect k (by omega) (by omega), hmap k hk h₂])
    · have hlast := hpre.shape.last
      rw [show (s.inodes p).iSize / 512 = k by omega] at hlast
      rw [hdirect k (by omega), hold k (by omega)]
      exact ⟨hext.mono (hpre.sound.mem k hlast), .inl rfl⟩
  · intro i k h₁ h₂ h₃ heq
    have hledger : ∀ m, used ≤ m + 1 → m < will → all m = overlay used (will - used) f
        (Function.update (blockRef s.disk (s.inodes p)) 140 (s.part.sb.dataStartLba + b)) m := by
      intro m hm₁ hm₂
      by_cases hm : used ≤ m
      · rw [hmap m hm hm₂, overlay_inside hm (by omega)]
      · rw [hold m (by omega), overlay_outside (by omega), Function.update_of_ne (by omega)]
    have hne : all k ≠ 0 := by
      rw [hmap k (by omega) h₃]
      exact hrun.layout.ne_zero (hrun.mem k (by omega) (by omega))
    have := hsound.inj i k (by rw [← hledger i h₁ (by omega), heq]; exact hne)
      (by rw [← hledger i h₁ (by omega), ← hledger k (by omega) h₃, heq])
    omega
  · intro j h₁ h₂
    rw [hindirect j (by omega) h₂, hmap₀ j (by omega) h₁]
  · intro a ha hblk
    rw [htab] at hblk
    rw [ht, FsState.setDisk_disk]
    rw [writtenTable_outside (hblk hwill12)]
    have hsb : s₂.part.sb = s.part.sb := by rw [hs₂]; rfl
    have hdisk₂ : s₂.disk = s.disk := by rw [hs₂]; rfl
    rw [← hdisk₂]
    exact hrun.disk_out a (by rwa [inBlockMap, hsb])
  · intro hsync hsec
    rw [ht]
    have hsb : s₃.part.sb = s.part.sb := by rw [hst, hs₂]; rfl
    have hsb₂ : s₂.part.sb = s.part.sb := by rw [hs₂]; rfl
    have hs₂sync : BlockMapSyncedOn s₂ (fun i => True ∧ i ≠ b / 4096) :=
      hs₂ ▸ (hsync.setBlockBit b true).setInode p _
    refine ((hrun.synced _ hs₂sync).mono (fun i _ => ?_)).setDisk hrun.layout fun a ha => ?_
    · by_cases hi : i = b / 4096
      · obtain ⟨b', hb', hf⟩ := hrun.head (by omega)
        have hbm : s₂.part.blockBitmap = bitmapSet s.part.blockBitmap b true := by rw [hs₂]; rfl
        refine .inr ⟨used, Nat.le_refl _, by omega, ?_⟩
        rw [hi, hf, Nat.add_sub_cancel_left]
        exact hsec hused12 hwill12 b b' hb (hbm ▸ hb')
      · exact .inl ⟨trivial, hi⟩
    · refine writtenTable_outside fun hblk => hrun.layout.not_inBlockMap ?_ hblk ha
      rw [hsb]
      exact Nat.le_add_right _ _

/-- The four ways of building the map. -/
theorem mapBlocks_run (hpre : MapPre s p used will)
    (h : mapBlocks p used will s = .ok (some all, t)) : MapRun s t p used will all := by
  unfold mapBlocks at h
  by_cases heq : will = used
  · subst heq
    rw [if_pos rfl] at h
    obtain ⟨all', hsame, h⟩ := Outcome.bind_eq_ok.1 h
    cases h
    exact mapSameBlock_run hpre hsame
  rw [if_neg heq] at h
  by_cases hwill : will ≤ 12
  · rw [if_pos hwill] at h
    exact mapDirect_run hpre hwill h
  rw [if_neg hwill] at h
  by_cases hused : used ≤ 12
  · rw [if_pos hused] at h
    exact mapCrossing_run hpre hused (by omega) h
  · rw [if_neg hused] at h
    exact mapIndirect_run hpre (by omega) h

/-! ## When the map is built -/

/-- From `s` to `t` blocks were taken and written, and sectors of node `p` set. -/
def Rewrites (s t : FsState) (p : Nat) : Prop :=
  ∃ bits d sec, t = (s.setBlocks bits d).setInode p ((s.inodes p).withSectors sec)

theorem Rewrites.refl (s : FsState) (p : Nat) : Rewrites s s p :=
  ⟨s.part.blockBitmap.bits, s.disk, (s.inodes p).iSectors, (s.setInode_self p).symm⟩

theorem Rewrites.trans {u : FsState} (h : Rewrites s t p) (h' : Rewrites t u p) :
    Rewrites s u p := by
  obtain ⟨bits, d, sec, rfl⟩ := h
  obtain ⟨bits', d', sec', rfl⟩ := h'
  refine ⟨bits', d', sec', ?_⟩
  simp [FsState.setInode, FsState.setBlocks, FsState.setPart, FsState.setDisk]

theorem Rewrites.setDisk (h : Rewrites s t p) (d : Mem) : Rewrites s (t.setDisk d) p := by
  obtain ⟨bits, d', sec, rfl⟩ := h
  exact ⟨bits, d, sec, rfl⟩

theorem AllocRun.rewrites {idx left : Nat} {r : Bool} {f : Nat → Nat}
    (h : AllocRun s t p idx left r f) : Rewrites s t p := by
  obtain ⟨bits, d, rfl⟩ := h.state
  cases r with
  | true => exact ⟨bits, d, _, rfl⟩
  | false => exact ⟨bits, d, (s.inodes p).iSectors, rfl⟩

/-- The blocks of a run were free, so they lie on the disk. -/
theorem AllocRun.onDisk {idx left : Nat} {r : Bool} {f : Nat → Nat}
    (h : AllocRun s t p idx left r f) (hfree : FreeOnDisk s) {k : Nat} (h₁ : idx ≤ k)
    (h₂ : k < idx + left) : f k ≤ maxLba := by
  have hmem := h.mem k h₁ h₂
  have hne : overlay idx left f (fun _ => 0) k ≠ 0 := by
    rw [overlay_inside h₁ h₂]
    exact h.layout.ne_zero hmem
  have hfresh := (h.extends_ (fun _ => 0) (fun _ _ _ => rfl)).fresh k rfl hne
  rw [overlay_inside h₁ h₂] at hfresh
  obtain ⟨bits, d, hst⟩ := h.state
  exact hfree.le_of_fresh (by rw [hst]; rfl) (by rw [hst]; rfl) hmem hfresh

/-- The allocation loop with enough free blocks. -/
theorem allocBlocks_spec (record : Nat → Bool) (left idx : Nat) (all : Nat → Nat) {r : Bool}
    (hs : Layout s) (hdisk : FreeOnDisk s) (hfree : left ≤ (freeBits s).card)
    (hr : ∀ lba, s.part.sb.dataStartLba ≤ lba → record lba = r)
    (hrec : r = true → idx + left ≤ 13 ∧
      ∀ k, idx ≤ k → k < idx + left → (s.inodes p).iSectors k = 0) :
    ∃ f t, allocBlocks record p left idx all s = .ok (some (overlay idx left f all), t) ∧
      Rewrites s t p ∧ Layout t ∧ ∀ k, idx ≤ k → k < idx + left → f k ≤ maxLba := by
  obtain ⟨all', t, h⟩ : ∃ all' t, allocBlocks record p left idx all s = .ok (some all', t) :=
    allocBlocks_of_free hs hfree hr hrec
  obtain ⟨f, hrun, rfl⟩ := allocBlocks_run hs hr h
  exact ⟨f, t, h, hrun.rewrites, hrun.layout, fun k h₁ h₂ => hrun.onDisk hdisk h₁ h₂⟩

/-- The sector pointers `file_write` asserts on its way from `used` to `will`
    blocks, once block 0 is there. -/
structure SectorsFit (ino : Inode) (used will : Nat) : Prop where
  table : 12 < used → ino.iSectors 12 ≠ 0
  noTable : used ≤ 12 → 12 < will → ino.iSectors 12 = 0
  last : used < will → will ≤ 12 → used ≠ 1 → ino.iSectors (used - 1) ≠ 0
  tail : will ≤ 12 → ∀ j, used ≤ j → j < will → ino.iSectors j = 0

/-- What the loop over the blocks needs of a map. -/
structure MapOk (s t : FsState) (p used will : Nat) (all : Nat → Nat) : Prop where
  state : Rewrites s t p
  layout : Layout t
  onDisk : ∀ k, used ≤ k + 1 → k < will → all k ≤ maxLba

/-- What the first block leaves for the map. -/
structure FirstOk (s t : FsState) (p : Nat) : Prop where
  state : Rewrites s t p
  layout : Layout t
  freeOnDisk : FreeOnDisk t
  pointers : ∀ j, blockRef t.disk (t.inodes p) j ≤ maxLba
  first : (t.inodes p).iSectors 0 ≠ 0
  rest : ∀ j, j ≠ 0 → (t.inodes p).iSectors j = (s.inodes p).iSectors j
  card : (freeBits s).card ≤ (freeBits t).card + if (s.inodes p).iSectors 0 = 0 then 1 else 0

theorem firstBlock_of_ready (hs : Layout s) (hdisk : FreeOnDisk s)
    (hptr : ∀ j, blockRef s.disk (s.inodes p) j ≤ maxLba)
    (htab : (s.inodes p).iSectors 12 ≠ 0 → s.part.sb.dataStartLba ≤ (s.inodes p).iSectors 12)
    (hfree : (s.inodes p).iSectors 0 = 0 → 0 < (freeBits s).card) :
    ∃ t, firstBlock p s = .ok (true, t) ∧ FirstOk s t p := by
  unfold firstBlock
  by_cases h0 : (s.inodes p).iSectors 0 = 0
  · rw [if_pos h0]
    obtain ⟨b₀, hb₀⟩ := Finset.card_pos.1 (hfree h0)
    obtain ⟨b, hb, halloc⟩ := blockBitmapAlloc_of_free hb₀
    have hl : Layout (setBlockBit s b true) := hs.take b s.disk
    have hdata := hs.table_le
    have hne : b ≠ 0 := by
      rintro rfl
      have := hb.clear
      rw [hs.rootBit] at this
      cases this
    simp only [halloc, Outcome.ok_bind, setSector, if_pos (show 0 < 13 by omega),
      FsState.setInode_part, setBlockBit_sb, hs.subU32_lba hb.lt, kassert_pos hne,
      (hl.setInode p _).bitmapSync_block (b := b) hb.lt]
    obtain ⟨t, ht⟩ : ∃ t, t = (putBlockBit s b true).setInode p ((s.inodes p).withSectors
        (Function.update (s.inodes p).iSectors 0 (s.part.sb.dataStartLba + b))) := ⟨_, rfl⟩
    have hsec : (t.inodes p).iSectors
        = Function.update (s.inodes p).iSectors 0 (s.part.sb.dataStartLba + b) := by
      rw [ht]
      simp
    refine ⟨t, by rw [ht]; rfl, ⟨_, _, _, ht⟩, ht ▸ (hs.take b _).setInode p _, ?_, fun j => ?_, ?_,
      fun j hj => ?_, ?_⟩
    · apply hdisk.mono (by rw [ht]; rfl) (by rw [ht]; rfl)
      intro lba hlba
      rw [ht]
      exact (mem_usedBlocks_setBlocks hb.lt (syncedBlockMap (setBlockBit s b true) b) lba).2
        (.inl hlba)
    · by_cases hj : j = 0
      · rw [hj, blockRef_direct (by omega), hsec, Function.update_self]
        exact hdisk b hb.lt hb.clear
      · -- the map's sector is not the table
        have hold : blockRef t.disk (t.inodes p) j = blockRef s.disk (s.inodes p) j := by
          apply blockRef_congr_entry
          · intro _
            rw [hsec, Function.update_of_ne hj]
          · rw [hsec, Function.update_of_ne (by omega)]
          · intro hne12 i hi
            rw [ht]
            apply hs.putBlockBit_outside hb.lt
            exact hs.not_inBlockMap (htab hne12) ⟨by omega, by omega⟩
        rw [hold]
        exact hptr j
    · rw [hsec, Function.update_self]
      omega
    · rw [hsec, Function.update_of_ne hj]
    · rw [if_pos h0, ht, freeBits_setInode, putBlockBit_eq,
        card_freeBits_setBlocks hb.lt hb.clear]
  · rw [if_neg h0]
    exact ⟨s, rfl, .refl s p, hs, hdisk, hptr, h0, fun _ _ => rfl, by omega⟩

theorem overlay_onDisk {f g : Nat → Nat}
    (hf : ∀ k, used ≤ k → k < used + (will - used) → f k ≤ maxLba) (hg : g (used - 1) ≤ maxLba) :
    ∀ k, used ≤ k + 1 → k < will → overlay used (will - used) f g k ≤ maxLba := by
  intro k h₁ h₂
  by_cases hk : used ≤ k
  · rw [overlay_inside hk (by omega)]
    exact hf k hk (by omega)
  · rw [overlay_outside (by omega), show k = used - 1 by omega]
    exact hg

/-- Entry `k` of the map read from the table. -/
theorem tableEntry_onDisk (hdisk : ∀ j, blockRef s.disk (s.inodes p) j ≤ maxLba)
    (htab : (s.inodes p).iSectors 12 ≠ 0) {k : Nat} (h₁ : 12 ≤ k) (h₂ : k < 140) (arr : Nat → Nat) :
    overlay 12 128 (fun k => s.disk.le32 ((s.inodes p).iSectors 12 * 512 + 4 * (k - 12))) arr k
      ≤ maxLba := by
  rw [overlay_inside h₁ (by omega), ← blockRef_indirect h₁ h₂ htab]
  exact hdisk k

theorem ideReadWords_onDisk {lba : Nat} (h : lba ≤ maxLba) (arr : Nat → Nat) :
    ideReadWords s lba arr 12
      = .ok (overlay 12 128 (fun k => s.disk.le32 (lba * 512 + 4 * (k - 12))) arr) := by
  rw [ideReadWords, kassert_pos h]
  rfl

theorem ideWriteWords_onDisk {lba : Nat} (h : lba ≤ maxLba) (all : Nat → Nat) :
    ideWriteWords s lba all 12 = .ok (s.setDisk (writtenTable s.disk lba all)) := by
  rw [ideWriteWords, ideWrite, kassert_pos h, kassert_pos (by omega)]
  rfl

/-- What makes the map of blocks `used - 1` to `will - 1` succeed. -/
structure MapReady (s : FsState) (p used will : Nat) : Prop where
  layout : Layout s
  freeOnDisk : FreeOnDisk s
  pointers : ∀ j, blockRef s.disk (s.inodes p) j ≤ maxLba
  first : (s.inodes p).iSectors 0 ≠ 0
  fits : SectorsFit (s.inodes p) used will
  used_pos : 0 < used
  used_le : used ≤ will
  will_le : will ≤ 140
  room : will - used + (if used ≤ 12 ∧ 12 < will then 1 else 0) ≤ (freeBits s).card

theorem iSectors_onDisk (h : ∀ j, blockRef s.disk (s.inodes p) j ≤ maxLba) {j : Nat}
    (hj : j ≤ 12) : (s.inodes p).iSectors j ≤ maxLba := by
  by_cases hj12 : j = 12
  · rw [hj12, ← blockRef_table s.disk]
    exact h 140
  · rw [← blockRef_direct (d := s.disk) (show j < 12 by omega)]
    exact h j

namespace MapReady

theorem sameBlock (h : MapReady s p used used) :
    ∃ all, mapSameBlock p used used (fun _ => 0) s = .ok all ∧ MapOk s s p used used all := by
  have hpos := h.used_pos
  have hle := h.will_le
  unfold mapSameBlock
  by_cases h12 : used ≤ 12
  · rw [if_pos h12]
    refine ⟨_, rfl, .refl s p, h.layout, fun k h₁ h₂ => ?_⟩
    rw [show k = used - 1 by omega, Function.update_self]
    exact iSectors_onDisk h.pointers (by omega)
  · have htab := h.fits.table (by omega)
    rw [if_neg h12, kassert_pos htab, Outcome.ok_bind,
      ideReadWords_onDisk (iSectors_onDisk h.pointers (Nat.le_refl _))]
    exact ⟨_, rfl, .refl s p, h.layout,
      fun k h₁ h₂ => tableEntry_onDisk h.pointers htab (by omega) (by omega) _⟩

theorem direct (h : MapReady s p used will) (hlt : used < will) (h12 : will ≤ 12) :
    ∃ all t, mapDirect p used will (fun _ => 0) s = .ok (some all, t) ∧
      MapOk s t p used will all := by
  have hroom := h.room
  have hlast : (s.inodes p).iSectors (used - 1) ≠ 0 := by
    by_cases hone : used = 1
    · rw [hone]
      exact h.first
    · exact h.fits.last hlt h12 hone
  unfold mapDirect
  dsimp only
  rw [kassert_pos hlast, Outcome.ok_bind]
  obtain ⟨f, t, hall, hst, hl, hf⟩ := allocBlocks_spec (p := p) (fun _ => true)
    (will - used) used
    (Function.update (fun _ => 0) (used - 1) ((s.inodes p).iSectors (used - 1))) h.layout
    h.freeOnDisk (by omega) (fun _ _ => rfl)
    (fun _ => ⟨by omega, fun k h₁ h₂ => h.fits.tail h12 k h₁ (by omega)⟩)
  refine ⟨_, t, hall, hst, hl, overlay_onDisk hf ?_⟩
  rw [Function.update_self]
  exact iSectors_onDisk h.pointers (by omega)

theorem crossing (h : MapReady s p used will) (hused12 : used ≤ 12) (h12 : 12 < will) :
    ∃ all t, mapCrossing p used will (fun _ => 0) s = .ok (some all, t) ∧
      MapOk s t p used will all := by
  have hnotab := h.fits.noTable hused12 h12
  have hroom := h.room
  rw [if_pos ⟨hused12, h12⟩] at hroom
  obtain ⟨b₀, hb₀⟩ := Finset.card_pos.1 (show 0 < (freeBits s).card by omega)
  obtain ⟨b, hb, halloc⟩ := blockBitmapAlloc_of_free hb₀
  have hcard₁ := card_freeBits_setBlocks hb.lt hb.clear s.disk
  have hl₁ : Layout (setBlockBit s b true) := h.layout.take b s.disk
  have hassert : kassert (setBlockBit s b true)
      (((setBlockBit s b true).inodes p).iSectors 12 = 0) = .ok () := kassert_pos hnotab
  obtain ⟨s₂, hs₂⟩ : ∃ s₂, s₂ = (setBlockBit s b true).setInode p
    (((setBlockBit s b true).inodes p).withSectors (Function.update
      ((setBlockBit s b true).inodes p).iSectors 12 (s.part.sb.dataStartLba + b))) := ⟨_, rfl⟩
  have hset : setSector (setBlockBit s b true) p 12 (s.part.sb.dataStartLba + b) = .ok s₂ :=
    setSector_eq_ok.2 ⟨by omega, hs₂⟩
  have hdata := h.layout.table_le
  have hfree₂ : FreeOnDisk s₂ := by
    apply h.freeOnDisk.mono (by rw [hs₂]; rfl) (by rw [hs₂]; rfl)
    intro lba hlba
    rw [hs₂]
    exact (mem_usedBlocks_setBlocks hb.lt s.disk lba).2 (.inl hlba)
  -- no LBA is below 12, so none of the new blocks is recorded
  obtain ⟨f, t, hall, hst, hl, hf⟩ := allocBlocks_spec (p := p) (r := false)
    (fun lba => lba < 12) (will - used) used
    (Function.update (fun _ => 0) (used - 1) ((s.inodes p).iSectors (used - 1)))
    (hs₂ ▸ hl₁.setInode p _) hfree₂ (by rw [hs₂, freeBits_setInode, setBlockBit]; omega)
    (fun lba hlba => by
      rw [hs₂, FsState.setInode_part, setBlockBit_sb] at hlba
      simp only [decide_eq_false_iff_not]
      omega)
    (fun h => by cases h)
  have hput : ideWriteWords t (s.part.sb.dataStartLba + b)
      (overlay used (will - used) f
        (Function.update (fun _ => 0) (used - 1) ((s.inodes p).iSectors (used - 1)))) 12 = _ :=
    ideWriteWords_onDisk (h.freeOnDisk b hb.lt hb.clear) _
  have hst₂ : Rewrites s s₂ p := ⟨_, s.disk, _, hs₂⟩
  unfold mapCrossing
  simp only [halloc, Outcome.ok_bind, hassert, hset, hall, hput]
  refine ⟨_, _, rfl, (hst₂.trans hst).setDisk _, hl.setDisk _, overlay_onDisk hf ?_⟩
  rw [Function.update_self]
  exact iSectors_onDisk h.pointers (by omega)

theorem indirect (h : MapReady s p used will) (hused12 : 12 < used) :
    ∃ all t, mapIndirect p used will (fun _ => 0) s = .ok (some all, t) ∧
      MapOk s t p used will all := by
  have htab := h.fits.table hused12
  have hlba := iSectors_onDisk h.pointers (Nat.le_refl 12)
  have hroom := h.room
  have hle := h.used_le
  have h140 := h.will_le
  unfold mapIndirect
  dsimp only
  rw [kassert_pos htab, Outcome.ok_bind, ideReadWords_onDisk hlba, Outcome.ok_bind]
  obtain ⟨f, t, hall, hst, hl, hf⟩ := allocBlocks_spec (p := p) (fun _ => false)
    (will - used) used
    (overlay 12 128 (fun k => s.disk.le32 ((s.inodes p).iSectors 12 * 512 + 4 * (k - 12)))
      (fun _ => 0)) h.layout h.freeOnDisk (by omega) (fun _ _ => rfl) (fun h => by cases h)
  rw [hall]
  simp only [Outcome.ok_bind, ideWriteWords_onDisk hlba]
  refine ⟨_, _, rfl, hst.setDisk _, hl.setDisk _, overlay_onDisk hf ?_⟩
  exact tableEntry_onDisk h.pointers htab (by omega) (by omega) _

end MapReady

/-- With enough free blocks, the file's pointers on the disk and the ASSERTs
    met, the map is built. -/
theorem mapBlocks_of_ready (h : MapReady s p used will) :
    ∃ all t, mapBlocks p used will s = .ok (some all, t) ∧ MapOk s t p used will all := by
  have hle := h.used_le
  unfold mapBlocks
  by_cases heq : will = used
  · subst heq
    obtain ⟨all, hsame, hok⟩ := h.sameBlock
    rw [if_pos rfl, hsame]
    exact ⟨all, s, rfl, hok⟩
  rw [if_neg heq]
  by_cases h12 : will ≤ 12
  · rw [if_pos h12]
    exact h.direct (by omega) h12
  rw [if_neg h12]
  by_cases hused12 : used ≤ 12
  · rw [if_pos hused12]
    exact h.crossing hused12 (by omega)
  · rw [if_neg hused12]
    exact h.indirect (by omega)

end

end Fs
end JackOS
