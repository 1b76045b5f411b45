/-
  JackOS.Fs.Position

  The read and write positions of open files.  `file_write` sets `fd_pos` to
  `i_size - 1` and counts on from there, `file_read` counts on from where it is,
  and `sys_lseek` sets it anew; all descriptors of a file share its `i_size`.
  The position stays inside the file because sizes only grow (`Grown`), but for
  one case: writing nothing to an empty file.
-/

import JackOS.Base.Transition
import JackOS.Fs.Descriptors

namespace JackOS
namespace Fs

open Base

variable {s s' s'' : FsState} {d : Option Nat}

/-! ## Sizes -/

/-- From `s` to `s'` no descriptor and no size changed, but for that of node
    `d`. -/
structure KeepsSizes (d : Option Nat) (s s' : FsState) : Prop where
  nodes : KeepsNodes s s'
  fileTable : s'.fileTable = s.fileTable
  iSize : ∀ p, p < s.nextNode → d ≠ some p → (s'.inodes p).iSize = (s.inodes p).iSize

theorem KeepsSizes.refl (d : Option Nat) (s : FsState) : KeepsSizes d s s :=
  ⟨.refl s, rfl, fun _ _ _ => rfl⟩

theorem KeepsSizes.trans (h : KeepsSizes d s s') (h' : KeepsSizes d s' s'') : KeepsSizes d s s'' := by
  refine ⟨h.nodes.trans h'.nodes, h'.fileTable.trans h.fileTable, fun p hp hd => ?_⟩
  rw [h'.iSize p (Nat.lt_of_lt_of_le hp h.nodes.nextNode) hd, h.iSize p hp hd]

theorem KeepsSizes.weaken (h : KeepsSizes none s s') (d : Option Nat) : KeepsSizes d s s' :=
  ⟨h.nodes, h.fileTable, fun p hp _ => h.iSize p hp (by simp)⟩

theorem Looks.keepsSizes (h : Looks s s') : KeepsSizes none s s' := by
  refine ⟨h.nodes, h.fileTable, fun p hp _ => ?_⟩
  rw [h.node p hp]

theorem Allots.keepsSizes (h : Allots s s') : KeepsSizes none s s' :=
  ⟨h.keepsFds.nodes, h.keepsFds.fileTable, fun p _ _ => h.iSize p⟩

theorem inodeSync_keepsSizes {inode : Inode} {ioBuf : Mem}
    (h : inodeSync s inode ioBuf = .ok s') : KeepsSizes none s s' := by
  obtain ⟨pos, -, h⟩ := Outcome.bind_eq_ok.1 h
  obtain ⟨_, -, h⟩ := Outcome.bind_eq_ok.1 h
  obtain ⟨buf, -, h⟩ := Outcome.bind_eq_ok.1 h
  exact (ideWrite_allots h).keepsSizes

theorem sysMalloc_keepsSizes {r : Option HeapBlock} (h : sysMalloc s = (r, s')) :
    KeepsSizes none s s' := (looks_sysMalloc h).keepsSizes

/-- The size of the node itself may change. -/
theorem setSize_keepsSizes (s : FsState) (p n : Nat) :
    KeepsSizes (some p) s (s.setInode p ((s.inodes p).withSize n)) := by
  refine ⟨(writes_setSize s p n).keepsFds.nodes, rfl, fun q _ hq => ?_⟩
  have hne : q ≠ p := fun heq => hq (by rw [heq])
  rw [FsState.setInode_inodes, Function.update_of_ne hne]

/-! ## Adding a directory entry -/

theorem writeFirstEntry_keepsSizes {p lba : Nat} {de : DirEntry} {ok : Bool}
    (h : writeFirstEntry p de lba s = .ok (ok, s')) : KeepsSizes (some p) s s' := by
  obtain ⟨s₁, hwrite, h⟩ := Outcome.bind_eq_ok.1 h
  cases h
  exact ((ideWrite_allots hwrite).keepsSizes.weaken _).trans (setSize_keepsSizes ..)

theorem syncFirstIndirect_keepsSizes {p lba : Nat} {de : DirEntry} {all : Nat → Nat} {ok : Bool}
    (h : syncFirstIndirect p de lba all s = .ok (ok, s')) : KeepsSizes (some p) s s' := by
  obtain ⟨s₁, hset, h⟩ := Outcome.bind_eq_ok.1 h
  obtain ⟨⟨data, s₂⟩, halloc, h⟩ := Outcome.bind_eq_ok.1 h
  have hkeep := (setSector_allots hset).keepsSizes.trans (blockBitmapAlloc_allots halloc).keepsSizes
  cases data with
  | none =>
      obtain ⟨s₃, hclear, h⟩ := Outcome.bind_eq_ok.1 h
      obtain ⟨s₄, hset', h⟩ := Outcome.bind_eq_ok.1 h
      cases h
      exact (hkeep.trans ((setBlockBit_allots hclear).keepsSizes.trans
        (setSector_allots hset').keepsSizes)).weaken _
  | some data =>
      obtain ⟨_, -, h⟩ := Outcome.bind_eq_ok.1 h
      obtain ⟨s₃, hsync, h⟩ := Outcome.bind_eq_ok.1 h
      obtain ⟨s₄, hwrite, h⟩ := Outcome.bind_eq_ok.1 h
      exact ((hkeep.trans ((bitmapSync_allots hsync).keepsSizes.trans
        (ideWrite_allots hwrite).keepsSizes)).weaken _).trans (writeFirstEntry_keepsSizes h)

theorem syncNewBlock_keepsSizes {p blockIdx : Nat} {de : DirEntry} {all : Nat → Nat} {ok : Bool}
    (h : syncNewBlock p de blockIdx all s = .ok (ok, s')) : KeepsSizes (some p) s s' := by
  obtain ⟨⟨lba, s₁⟩, halloc, h⟩ := Outcome.bind_eq_ok.1 h
  have hkeep := (blockBitmapAlloc_allots halloc).keepsSizes
  cases lba with
  | none =>
      cases h
      exact hkeep.weaken _
  | some lba =>
      obtain ⟨_, -, h⟩ := Outcome.bind_eq_ok.1 h
      obtain ⟨s₂, hsync, h⟩ := Outcome.bind_eq_ok.1 h
      have hkeep' := hkeep.trans (bitmapSync_allots hsync).keepsSizes
      split at h
      · obtain ⟨s₃, hset, h⟩ := Outcome.bind_eq_ok.1 h
        exact ((hkeep'.trans (setSector_allots hset).keepsSizes).weaken _).trans
          (writeFirstEntry_keepsSizes h)
      · split at h
        · exact (hkeep'.weaken _).trans (syncFirstIndirect_keepsSizes h)
        · obtain ⟨s₃, hwrite, h⟩ := Outcome.bind_eq_ok.1 h
          exact ((hkeep'.trans (ideWrite_allots hwrite).keepsSizes).weaken _).trans
            (writeFirstEntry_keepsSizes h)

theorem syncBlocks_keepsSizes {p left blockIdx : Nat} {de : DirEntry} {all : Nat → Nat} {ok : Bool}
    (h : syncBlocks p de all left blockIdx s = .ok (ok, s')) : KeepsSizes (some p) s s' := by
  induction left generalizing blockIdx with
  | zero =>
      cases h
      exact .refl _ _
  | succ left ih =>
      unfold syncBlocks at h
      split at h
      · exact syncNewBlock_keepsSizes h
      · obtain ⟨buf, -, h⟩ := Outcome.bind_eq_ok.1 h
        split at h
        · obtain ⟨s₁, hwrite, h⟩ := Outcome.bind_eq_ok.1 h
          cases h
          exact ((ideWrite_allots hwrite).keepsSizes.weaken _).trans (setSize_keepsSizes ..)
        · exact ih h

/-- `sync_dir_entry` changes the size of the directory at most. -/
theorem syncDirEntry_keepsSizes {p : Nat} {de : DirEntry} {ok : Bool}
    (h : syncDirEntry s p de = .ok (ok, s')) : KeepsSizes (some p) s s' := by
  obtain ⟨_, -, h⟩ := Outcome.bind_eq_ok.1 h
  exact syncBlocks_keepsSizes h

/-! ## The loops -/

/-- `x` counted on by `n` bytes, chunk by chunk. -/
def countOn (x n : Nat) : Nat := if n = 0 then x else u32 (x + n)

theorem countOn_chunk {x n chunk : Nat} (hle : chunk ≤ n) (hn : n ≠ 0) :
    countOn (u32 (x + chunk)) (n - chunk) = countOn x n := by
  unfold countOn
  rw [if_neg hn]
  split
  · congr 2
    omega
  · simp only [u32]
    omega

/-- The position a read leaves. -/
theorem readLoop_pos {all : Nat → Nat} {fuel bytesRead sizeLeft fdPos pos : Nat} {dst dst' : Mem}
    (h : readLoop s all fuel bytesRead sizeLeft fdPos dst = .ok (dst', pos)) :
    pos = countOn fdPos sizeLeft := by
  induction fuel generalizing bytesRead sizeLeft fdPos dst with
  | zero =>
      unfold readLoop at h
      split at h
      · rename_i hdone
        cases h
        rw [countOn, if_pos hdone]
      · cases h
  | succ fuel ih =>
      unfold readLoop at h
      split at h
      · rename_i hdone
        cases h
        rw [countOn, if_pos hdone]
      · rename_i hleft
        obtain ⟨secLba, -, h⟩ := Outcome.bind_eq_ok.1 h
        obtain ⟨ioBuf, -, h⟩ := Outcome.bind_eq_ok.1 h
        rw [ih h, countOn_chunk (Nat.min_le_left _ _) hleft]

/-- What the rounds of a write do: the position counts on, and so does the size,
    which stays below the largest one. -/
structure CountsOn (fdIdx p left : Nat) (s s' : FsState) : Prop where
  nodes : KeepsNodes s s'
  fileTable : s'.fileTable = Function.update s.fileTable fdIdx
    { s.fileTable fdIdx with fdPos := countOn (s.fileTable fdIdx).fdPos left }
  others : ∀ q, q ≠ p → (s'.inodes q).iSize = (s.inodes q).iSize
  iSize : (s'.inodes p).iSize = (s.inodes p).iSize + left
  room : left ≠ 0 → (s.inodes p).iSize + left ≤ maxFileBytes

theorem CountsOn.done (fdIdx p : Nat) (s : FsState) : CountsOn fdIdx p 0 s s := by
  refine ⟨.refl s, ?_, fun _ _ => rfl, rfl, fun h => absurd rfl h⟩
  rw [countOn, if_pos rfl, Function.update_eq_self]

/-- The state behind one round that wrote `chunk` bytes to the disk, which is
    `d` then. -/
def afterChunk (s : FsState) (d : Mem) (fdIdx p chunk : Nat) : FsState :=
  let s := s.setDisk d
  let s := s.setInode p ((s.inodes p).withSize (u32 ((s.inodes p).iSize + chunk)))
  s.setFd fdIdx { s.fileTable fdIdx with fdPos := u32 ((s.fileTable fdIdx).fdPos + chunk) }

/-- One round and the rounds behind it. -/
theorem CountsOn.round {fdIdx p chunk left : Nat} {d : Mem} (hchunk : chunk ≤ left)
    (hleft : left ≠ 0) (hroom : (s.inodes p).iSize + chunk ≤ maxFileBytes)
    (h : CountsOn fdIdx p (left - chunk) (afterChunk s d fdIdx p chunk) s') :
    CountsOn fdIdx p left s s' := by
  have hinode : (afterChunk s d fdIdx p chunk).inodes
      = Function.update s.inodes p ((s.inodes p).withSize (u32 ((s.inodes p).iSize + chunk))) := rfl
  have htable : (afterChunk s d fdIdx p chunk).fileTable = Function.update s.fileTable fdIdx
      { s.fileTable fdIdx with fdPos := u32 ((s.fileTable fdIdx).fdPos + chunk) } := rfl
  have hsum : u32 ((s.inodes p).iSize + chunk) = (s.inodes p).iSize + chunk :=
    u32_of_lt (Nat.lt_of_le_of_lt hroom (by decide))
  have hsize := h.iSize
  have hmore := h.room
  rw [hinode, Function.update_self, Inode.withSize_iSize, hsum] at hsize hmore
  refine ⟨?_, ?_, fun q hq => ?_, ?_, fun _ => ?_⟩
  · exact (((writes_setDisk s d).keepsFds.nodes.trans
      (writes_setSize (s.setDisk d) p _).keepsFds.nodes).setFd _ _).trans h.nodes
  · rw [h.fileTable, htable, Function.update_self, Function.update_idem]
    simp only [countOn_chunk hchunk hleft]
  · rw [h.others q hq, hinode, Function.update_of_ne hq]
  · rw [hsize]
    omega
  · by_cases hlast : left - chunk = 0
    · omega
    · have := hmore hlast
      omega

theorem blockEntry_lt {all : Nat → Nat} {idx lba : Nat} (h : blockEntry all idx = .ok lba) :
    idx < 140 := by
  unfold blockEntry at h
  split at h
  · assumption
  · cases h

theorem writeLoop_countsOn {fdIdx p : Nat} {all : Nat → Nat} {src : Mem}
    {fuel bytesWritten sizeLeft : Nat} {first : Bool}
    (h : writeLoop fdIdx p all src fuel bytesWritten sizeLeft first s = .ok s') :
    CountsOn fdIdx p sizeLeft s s' := by
  induction fuel generalizing bytesWritten sizeLeft first s with
  | zero =>
      unfold writeLoop at h
      split at h
      · rename_i hdone
        cases h
        rw [hdone]
        exact .done ..
      · cases h
  | succ fuel ih =>
      unfold writeLoop at h
      split at h
      · rename_i hdone
        cases h
        rw [hdone]
        exact .done ..
      · rename_i hleft
        obtain ⟨secLba, hentry, h⟩ := Outcome.bind_eq_ok.1 h
        obtain ⟨ioBuf, -, h⟩ := Outcome.bind_eq_ok.1 h
        obtain ⟨s₁, hwrite, h⟩ := Outcome.bind_eq_ok.1 h
        obtain ⟨_, -, hwrite⟩ := Outcome.bind_eq_ok.1 hwrite
        obtain ⟨_, -, hwrite⟩ := Outcome.bind_eq_ok.1 hwrite
        cases hwrite
        -- the chunk ends in a block that the file can have
        have hblock := blockEntry_lt hentry
        have hroom : (s.inodes p).iSize
            + min sizeLeft (blockSize - (s.inodes p).iSize % blockSize) ≤ maxFileBytes := by
          simp only [blockSize, maxFileBytes] at hblock ⊢
          omega
        exact .round (Nat.min_le_left _ _) hleft hroom (ih h)

/-! ## Positions -/

/-- The position of every entry in use that is no pipe is inside its file. -/
def PosOk (s : FsState) : Prop :=
  ∀ i p, (s.fileTable i).fdInode = some p → (s.fileTable i).fdFlag ≠ pipeFlag →
    (s.fileTable i).fdPos ≤ (s.inodes p).iSize

/-- Sizes did not shrink and positions did not move. -/
theorem PosOk.keepsSizes (hpos : PosOk s) (hs : NodesOk s) (h : KeepsSizes d s s')
    (hd : ∀ i, d = none ∨ (s.fileTable i).fdInode ≠ d) : PosOk s' := by
  intro i p hp hflag
  rw [h.fileTable] at hp hflag ⊢
  have hne : d ≠ some p := by
    rintro rfl
    rcases hd i with hnone | hne
    · cases hnone
    · exact hne hp
  rw [h.iSize p (hs.table i p hp) hne]
  exact hpos i p hp hflag

theorem KeepsSizes.nodesOk (h : KeepsSizes d s s') (hs : NodesOk s) : NodesOk s' := by
  refine ⟨h.nodes.opened_lt hs.opened, fun i p hp => ?_⟩
  rw [h.fileTable] at hp
  exact Nat.lt_of_lt_of_le (hs.table i p hp) h.nodes.nextNode

theorem NodesOk.move {fdIdx pos : Nat} (hs : NodesOk s) (h : KeepsNodes s s')
    (htable : s'.fileTable
      = Function.update s.fileTable fdIdx { s.fileTable fdIdx with fdPos := pos }) :
    NodesOk s' := by
  refine ⟨h.opened_lt hs.opened, fun i q hq => Nat.lt_of_lt_of_le (hs.table i q ?_) h.nextNode⟩
  rw [htable] at hq
  by_cases hi : i = fdIdx
  · rw [hi, Function.update_self] at hq
    rw [hi]
    exact hq
  · rwa [Function.update_of_ne hi] at hq

/-- An entry moved inside its file, whose size grew at most. -/
theorem PosOk.move {fdIdx p pos : Nat} (hpos : PosOk s)
    (htable : s'.fileTable
      = Function.update s.fileTable fdIdx { s.fileTable fdIdx with fdPos := pos })
    (hfd : (s.fileTable fdIdx).fdInode = some p) (hin : pos ≤ (s'.inodes p).iSize)
    (hgrow : ∀ i q, (s.fileTable i).fdInode = some q →
      (s.inodes q).iSize ≤ (s'.inodes q).iSize) : PosOk s' := by
  intro i q hq hflag
  rw [htable] at hq hflag ⊢
  by_cases hi : i = fdIdx
  · rw [hi, Function.update_self] at hq ⊢
    rw [hfd] at hq
    cases hq
    exact hin
  · rw [Function.update_of_ne hi] at hq hflag ⊢
    exact (hpos i q hq hflag).trans (hgrow i q hq)

/-! ## Reading, writing and seeking -/

/-- A read ends in the file or at its end. -/
theorem countOn_readSize_le {fdPos iSize count : Nat} (hin : fdPos ≤ iSize) :
    countOn fdPos (readSize fdPos iSize count) ≤ iSize := by
  unfold countOn readSize
  by_cases hend : u32 (fdPos + count) > iSize
  · rw [if_pos hend]
    by_cases hzero : subU32 iSize fdPos = 0
    · rw [if_pos hzero]
      exact hin
    · rw [if_neg hzero]
      simp only [u32, subU32] at hend ⊢
      omega
  · rw [if_neg hend]
    by_cases hzero : count = 0
    · rw [if_pos hzero]
      exact hin
    · rw [if_neg hzero]
      exact Nat.le_of_not_gt hend

theorem fileRead_pos {fdIdx count : Nat} {buf buf' : Mem} {r : Int} (hs : NodesOk s)
    (hpos : PosOk s) (hpipe : isPipe s fdIdx = false)
    (h : fileRead s fdIdx buf count = .ok (r, buf', s')) : NodesOk s' ∧ PosOk s' := by
  unfold fileRead at h
  cases hfd : (s.fileTable fdIdx).fdInode with
  | none =>
      rw [hfd] at h
      cases h
  | some p =>
  rw [hfd] at h
  simp only at h
  have hflag : (s.fileTable fdIdx).fdFlag ≠ pipeFlag := by simpa [isPipe] using hpipe
  have hin := hpos fdIdx p hfd hflag
  split at h
  · cases h
    exact ⟨hs, hpos⟩
  cases hbuf : sysMalloc s with
  | mk ioBuf s₁ =>
  rw [hbuf] at h
  have hkeep₁ := sysMalloc_keepsSizes hbuf
  cases ioBuf with
  | none =>
      cases h
      exact ⟨hkeep₁.nodesOk hs, hpos.keepsSizes hs hkeep₁ fun _ => .inl rfl⟩
  | some ioBuf =>
  simp only at h
  cases hblocks : sysMalloc s₁ with
  | mk allBlocksLba s₂ =>
  rw [hblocks] at h
  have hkeep₂ := hkeep₁.trans (sysMalloc_keepsSizes hblocks)
  cases allBlocksLba with
  | none =>
      cases h
      exact ⟨hkeep₂.nodesOk hs, hpos.keepsSizes hs hkeep₂ fun _ => .inl rfl⟩
  | some allBlocksLba =>
  obtain ⟨_, -, h⟩ := Outcome.bind_eq_ok.1 h
  obtain ⟨all, -, h⟩ := Outcome.bind_eq_ok.1 h
  obtain ⟨⟨dst, pos⟩, hloop, h⟩ := Outcome.bind_eq_ok.1 h
  obtain ⟨_, -, h⟩ := Outcome.bind_eq_ok.1 h
  obtain ⟨_, -, h⟩ := Outcome.bind_eq_ok.1 h
  cases h
  have hs₂ := hkeep₂.nodesOk hs
  have hpos₂ : PosOk s₂ := hpos.keepsSizes hs hkeep₂ fun _ => .inl rfl
  have hfd₂ : (s₂.fileTable fdIdx).fdInode = some p := by rw [hkeep₂.fileTable, hfd]
  have hsize₂ : (s₂.inodes p).iSize = (s.inodes p).iSize :=
    hkeep₂.iSize p (hs.table fdIdx p hfd) (by simp)
  refine ⟨hs₂.move ((KeepsNodes.refl s₂).setFd fdIdx _) rfl,
    hpos₂.move rfl hfd₂ ?_ fun _ _ _ => Nat.le_refl _⟩
  change pos ≤ (s₂.inodes p).iSize
  rw [hsize₂, readLoop_pos hloop]
  exact countOn_readSize_le hin

/-- The position behind a write of `count` bytes to a file of `iSize` bytes. -/
theorem countOn_end_le {iSize count : Nat} (hsome : count = 0 → iSize ≠ 0)
    (hroom : count ≠ 0 → iSize + count ≤ maxFileBytes) :
    countOn (subU32 iSize 1) count ≤ iSize + count := by
  unfold countOn
  by_cases hzero : count = 0
  · have hsome := hsome hzero
    rw [if_pos hzero, hzero]
    simp only [subU32]
    omega
  · have hroom := hroom hzero
    rw [if_neg hzero]
    simp only [maxFileBytes, blockSize, u32, subU32] at hroom ⊢
    omega

theorem syncFileInode_keepsSizes {p : Nat} (h : syncFileInode s p = .ok s') :
    KeepsSizes none s s' := by
  unfold syncFileInode at h
  cases hbuf : sysMalloc s with
  | mk inodeBuf s₁ =>
  rw [hbuf] at h
  have hkeep := sysMalloc_keepsSizes hbuf
  cases inodeBuf with
  | none =>
      cases h
      exact hkeep
  | some inodeBuf =>
      obtain ⟨s₂, hsync, h⟩ := Outcome.bind_eq_ok.1 h
      obtain ⟨_, -, h⟩ := Outcome.bind_eq_ok.1 h
      cases h
      exact hkeep.trans (inodeSync_keepsSizes hsync)

theorem fileWrite_pos {fdIdx count : Nat} {buf : Mem} {r : Int} (hs : NodesOk s)
    (hpos : PosOk s) (hsome : ∀ p, (s.fileTable fdIdx).fdInode = some p → count = 0 →
      (s.inodes p).iSize ≠ 0)
    (h : fileWrite s fdIdx buf count = .ok (r, s')) : NodesOk s' ∧ PosOk s' := by
  unfold fileWrite at h
  cases hfd : (s.fileTable fdIdx).fdInode with
  | none =>
      rw [hfd] at h
      cases h
  | some p =>
  rw [hfd] at h
  simp only at h
  split at h
  · cases h
    exact ⟨hs, hpos⟩
  have hstop : ∀ {t : FsState}, KeepsSizes none s t → NodesOk t ∧ PosOk t := fun hkeep =>
    ⟨hkeep.nodesOk hs, hpos.keepsSizes hs hkeep fun _ => .inl rfl⟩
  cases hbuf : sysMalloc s with
  | mk ioBuf s₁ =>
  rw [hbuf] at h
  have hkeep₁ := sysMalloc_keepsSizes hbuf
  cases ioBuf with
  | none =>
      cases h
      exact hstop hkeep₁
  | some ioBuf =>
  simp only at h
  cases hblocks : sysMalloc s₁ with
  | mk allBlocksLba s₂ =>
  rw [hblocks] at h
  have hkeep₂ := hkeep₁.trans (sysMalloc_keepsSizes hblocks)
  cases allBlocksLba with
  | none =>
      cases h
      exact hstop hkeep₂
  | some allBlocksLba =>
  obtain ⟨⟨ok, s₃⟩, hfirst, h⟩ := Outcome.bind_eq_ok.1 h
  have hkeep₃ := hkeep₂.trans (firstBlock_allots hfirst).keepsSizes
  simp only at h
  split at h
  · cases h
    exact hstop hkeep₃
  obtain ⟨_, -, h⟩ := Outcome.bind_eq_ok.1 h
  obtain ⟨⟨all, s₄⟩, hmap, h⟩ := Outcome.bind_eq_ok.1 h
  have hkeep₄ := hkeep₃.trans (mapBlocks_allots hmap).keepsSizes
  cases all with
  | none =>
      cases h
      exact hstop hkeep₄
  | some all =>
  obtain ⟨s₅, hloop, h⟩ := Outcome.bind_eq_ok.1 h
  obtain ⟨s₆, hsync, h⟩ := Outcome.bind_eq_ok.1 h
  obtain ⟨_, -, h⟩ := Outcome.bind_eq_ok.1 h
  obtain ⟨_, -, h⟩ := Outcome.bind_eq_ok.1 h
  cases h
  have hs₄ := hkeep₄.nodesOk hs
  have hpos₄ : PosOk s₄ := hpos.keepsSizes hs hkeep₄ fun _ => .inl rfl
  have hfd₄ : (s₄.fileTable fdIdx).fdInode = some p := by rw [hkeep₄.fileTable, hfd]
  have hsize₄ : (s₄.inodes p).iSize = (s.inodes p).iSize :=
    hkeep₄.iSize p (hs.table fdIdx p hfd) (by simp)
  have hloop := writeLoop_countsOn hloop
  have hnodes₅ : KeepsNodes s₄ s₅ := ((KeepsNodes.refl s₄).setFd _ _).trans hloop.nodes
  have htable₅ : s₅.fileTable = Function.update s₄.fileTable fdIdx { s₄.fileTable fdIdx with
      fdPos := countOn (subU32 (s₄.inodes p).iSize 1) count } := by
    rw [hloop.fileTable, FsState.setFd_fileTable, Function.update_self, Function.update_idem]
  have hsize₅ : (s₅.inodes p).iSize = (s₄.inodes p).iSize + count := hloop.iSize
  have hs₅ := hs₄.move hnodes₅ htable₅
  have hpos₅ : PosOk s₅ := by
    refine hpos₄.move htable₅ hfd₄ ?_ fun i q _ => ?_
    · rw [hsize₅]
      exact countOn_end_le (fun hzero => by rw [hsize₄]; exact hsome p hfd hzero) hloop.room
    · -- the other files of the table keep their sizes
      by_cases hq : q = p
      · rw [hq, hsize₅]
        exact Nat.le_add_right _ _
      · exact Nat.le_of_eq (hloop.others q hq).symm
  have hkeep₆ := syncFileInode_keepsSizes hsync
  exact ⟨hkeep₆.nodesOk hs₅, hpos₅.keepsSizes hs₅ hkeep₆ fun _ => .inl rfl⟩

theorem int32_pred_le (n : Nat) : int32 (int32 n - 1) ≤ n := by
  unfold int32 Int.bmod
  dsimp only
  split_ifs <;> omega

theorem sysLseek_pos {fd offset r : Int} {whence : Nat} (hs : NodesOk s) (hpos : PosOk s)
    (h : sysLseek s fd offset whence = .ok (r, s')) : NodesOk s' ∧ PosOk s' := by
  unfold sysLseek at h
  split at h
  · cases h
    exact ⟨hs, hpos⟩
  obtain ⟨_, -, h⟩ := Outcome.bind_eq_ok.1 h
  obtain ⟨globalFd, -, h⟩ := Outcome.bind_eq_ok.1 h
  cases hfd : (s.fileTable globalFd).fdInode with
  | none =>
      rw [hfd] at h
      cases h
  | some p =>
  rw [hfd] at h
  simp only at h
  split at h
  · cases h
  have h := Except.ok.inj h
  unfold seekFile at h
  simp only at h
  split at h
  · cases h
    exact ⟨hs, hpos⟩
  · rename_i hin
    cases h
    refine ⟨hs.move ((KeepsNodes.refl s).setFd globalFd _) rfl,
      hpos.move rfl hfd ?_ fun _ _ _ => Nat.le_refl _⟩
    have hle := int32_pred_le (s.inodes p).iSize
    change (seekPos _ _ offset whence).toNat ≤ (s.inodes p).iSize
    omega

/-! ## Opening -/

/-- From `s` to `s'` the sizes stayed, but for that of node `d`. -/
structure SameSizes (d : Option Nat) (s s' : FsState) : Prop where
  nextNode : s.nextNode ≤ s'.nextNode
  iSize : ∀ p, p < s.nextNode → d ≠ some p → (s'.inodes p).iSize = (s.inodes p).iSize

theorem SameSizes.trans (h : SameSizes d s s') (h' : SameSizes d s' s'') : SameSizes d s s'' := by
  refine ⟨h.nextNode.trans h'.nextNode, fun p hp hd => ?_⟩
  rw [h'.iSize p (Nat.lt_of_lt_of_le hp h.nextNode) hd, h.iSize p hp hd]

theorem SameSizes.of_eq (hinodes : s'.inodes = s.inodes) (hnext : s'.nextNode = s.nextNode) :
    SameSizes d s s' :=
  ⟨Nat.le_of_eq hnext.symm, fun p _ _ => by rw [hinodes]⟩

theorem KeepsSizes.same (h : KeepsSizes d s s') : SameSizes d s s' := ⟨h.nodes.nextNode, h.iSize⟩

theorem Looks.sameSizes (h : Looks s s') (d : Option Nat) : SameSizes d s s' :=
  (h.keepsSizes.weaken d).same

/-- A node of the same size, or a new one. -/
theorem SameSizes.setInode (h : SameSizes d s s') {p : Nat} {ino : Inode}
    (hp : s.nextNode ≤ p ∨ ino.iSize = (s'.inodes p).iSize) : SameSizes d s (s'.setInode p ino) := by
  refine ⟨h.nextNode, fun q hq hd => ?_⟩
  rw [FsState.setInode_inodes]
  by_cases hqp : q = p
  · rw [hqp, Function.update_self]
    rcases hp with hnew | hsame
    · omega
    · rw [hsame, ← hqp, h.iSize q hq hd]
  · rw [Function.update_of_ne hqp, h.iSize q hq hd]

theorem SameSizes.pcbFdInstall (h : SameSizes d s s') {slot : Int} {r : Int × FsState}
    (hinstall : Fs.pcbFdInstall s' slot = r) : SameSizes d s r.2 := by
  obtain ⟨task, htask⟩ := pcbFdInstall_state s' slot
  rw [hinstall] at htask
  rw [htask]
  exact h.trans (.of_eq rfl rfl)

theorem fileOpen_sameSizes {inodeNo flag : Nat} {fd : Int}
    (h : fileOpen s inodeNo flag = .ok (fd, s')) : SameSizes d s s' := by
  unfold fileOpen at h
  cases hslot : getFreeSlotInGlobal s with
  | none =>
      rw [hslot] at h
      cases h
      exact .of_eq rfl rfl
  | some slot =>
      rw [hslot] at h
      obtain ⟨⟨p, s₁⟩, hopen, h⟩ := Outcome.bind_eq_ok.1 h
      have hsame : SameSizes d s (s₁.setFd slot { fdPos := 0, fdFlag := flag, fdInode := some p }) :=
        ((inodeOpen_spec hopen).1.sameSizes d).trans (.of_eq rfl rfl)
      simp only at h
      split at h
      · split at h
        · cases h
          exact hsame
        · have hinstall := Except.ok.inj h
          refine SameSizes.pcbFdInstall (hsame.setInode (.inr ?_)) hinstall
          rfl
      · exact hsame.pcbFdInstall (Except.ok.inj h)

theorem rollbackNode_sameSizes {inodeNo : Nat} {node ioBuf : HeapBlock} {fd : Int}
    (h : rollbackNode inodeNo node ioBuf s = .ok (fd, s')) : SameSizes d s s' := by
  obtain ⟨_, -, h⟩ := Outcome.bind_eq_ok.1 h
  obtain ⟨s₁, hset, h⟩ := Outcome.bind_eq_ok.1 h
  obtain ⟨_, -, h⟩ := Outcome.bind_eq_ok.1 h
  cases h
  rw [setInodeBit_eq hset]
  exact .of_eq rfl rfl

theorem createInDir_sameSizes {parentDir : Dir} {filename : List UInt8} {inodeNo fdIdx p : Nat}
    {node ioBuf : HeapBlock} {fd : Int} (hp : s.nextNode ≤ p)
    (h : createInDir parentDir filename inodeNo fdIdx p node ioBuf s' = .ok (fd, s''))
    (hsame : SameSizes (some parentDir.inode) s s') : SameSizes (some parentDir.inode) s s'' := by
  obtain ⟨de, -, h⟩ := Outcome.bind_eq_ok.1 h
  obtain ⟨⟨synced, s₁⟩, hsync, h⟩ := Outcome.bind_eq_ok.1 h
  have hsame₁ := hsame.trans (syncDirEntry_keepsSizes hsync).same
  cases synced with
  | false =>
      have h : rollbackNode inodeNo node ioBuf (s₁.setFd fdIdx ⟨0, 0, none⟩) = .ok (fd, s'') := h
      have hfd : SameSizes (some parentDir.inode) s₁ (s₁.setFd fdIdx ⟨0, 0, none⟩) := .of_eq rfl rfl
      exact hsame₁.trans (hfd.trans (rollbackNode_sameSizes h))
  | true =>
      obtain ⟨s₂, hparent, h⟩ := Outcome.bind_eq_ok.1 h
      obtain ⟨s₃, hnew, h⟩ := Outcome.bind_eq_ok.1 h
      obtain ⟨s₄, hbit, h⟩ := Outcome.bind_eq_ok.1 h
      obtain ⟨_, -, h⟩ := Outcome.bind_eq_ok.1 h
      have hkeep := (inodeSync_keepsSizes hparent).trans
        ((inodeSync_keepsSizes hnew).trans (bitmapSync_allots hbit).keepsSizes)
      have hsame₄ := hsame₁.trans (hkeep.weaken _).same
      have hpush : SameSizes (some parentDir.inode) s (s₄.pushOpen p) :=
        hsame₄.trans (.of_eq rfl rfl)
      exact (hpush.setInode (.inl hp)).pcbFdInstall (Except.ok.inj h)

theorem fileCreate_sameSizes {parentDir : Dir} {filename : List UInt8} {flag : Nat} {fd : Int}
    (h : fileCreate s parentDir filename flag = .ok (fd, s')) :
    SameSizes (some parentDir.inode) s s' := by
  unfold fileCreate at h
  cases hbuf : sysMalloc s with
  | mk ioBuf s₁ =>
  rw [hbuf] at h
  have hsame₁ := (looks_sysMalloc hbuf).sameSizes (some parentDir.inode)
  cases ioBuf with
  | none =>
      cases h
      exact hsame₁
  | some ioBuf =>
  obtain ⟨⟨inodeNo, s₂⟩, halloc, h⟩ := Outcome.bind_eq_ok.1 h
  cases inodeNo with
  | none =>
      cases h
      rw [inodeBitmapAlloc_none halloc]
      exact hsame₁
  | some inodeNo =>
  obtain ⟨-, hset⟩ := inodeBitmapAlloc_some halloc
  have hsame₂ : SameSizes (some parentDir.inode) s s₂ := by
    rw [setInodeBit_eq hset]
    exact hsame₁.trans (.of_eq rfl rfl)
  simp only at h
  unfold createNode at h
  simp only at h
  cases hnode : sysMalloc (s₂.setPgdir none) with
  | mk node s₃ =>
  rw [hnode] at h
  have hsame₃ : SameSizes (some parentDir.inode) s s₃ :=
    (hsame₂.trans (.of_eq rfl rfl : SameSizes _ s₂ (s₂.setPgdir none))).trans
      ((looks_sysMalloc hnode).sameSizes _)
  cases node with
  | none =>
      obtain ⟨s₄, hclear, h⟩ := Outcome.bind_eq_ok.1 h
      obtain ⟨_, -, h⟩ := Outcome.bind_eq_ok.1 h
      cases h
      rw [setInodeBit_eq hclear]
      exact hsame₃.trans (.of_eq rfl rfl)
  | some node =>
      -- the new node is behind all the others
      have hsame₄ : SameSizes (some parentDir.inode) s
          ((s₃.newNode (inodeInit inodeNo)).setPgdir s₂.task.pgdir) := by
        refine ⟨Nat.le_succ_of_le hsame₃.nextNode, fun q hq hd => ?_⟩
        change (Function.update s₃.inodes s₃.nextNode (inodeInit inodeNo) q).iSize = _
        have hlt : q < s₃.nextNode := Nat.lt_of_lt_of_le hq hsame₃.nextNode
        rw [Function.update_of_ne (Nat.ne_of_lt hlt), hsame₃.iSize q hq hd]
      simp only at h
      split at h
      · exact hsame₄.trans (rollbackNode_sameSizes h)
      · refine createInDir_sameSizes hsame₃.nextNode h (SameSizes.setInode ?_ (.inl hsame₃.nextNode))
        exact hsame₄.trans (.of_eq rfl rfl)

/-- The directory in which the call would create a file is not itself open as
    one. -/
def OnRegular (s : FsState) (pathname : List UInt8) : Prop :=
  ∀ record s₁, searchFile s pathname = .ok (none, record, s₁) →
    ∀ i, (s.fileTable i).fdInode ≠ some record.parentDir.inode

/-- `sys_open` leaves the sizes of the files in the table alone. -/
theorem sysOpen_sizes {pathname : List UInt8} {flags : Nat} {fd : Int} (hs : NodesOk s)
    (hreg : OnRegular s pathname) (h : sysOpen s pathname flags = .ok (fd, s')) {i p : Nat}
    (hp : (s.fileTable i).fdInode = some p) : (s'.inodes p).iSize = (s.inodes p).iSize := by
  have hlt := hs.table i p hp
  rcases sysOpen_cases h with ⟨-, hsought⟩ | ⟨inodeNo, record, s₁, hres, -, hopen⟩
    | ⟨record, filename, s₁, s₂, hres, -, -, hcreate, hclose⟩
  · exact (hsought.looks.sameSizes none).iSize p hlt (by simp)
  · have hsame := ((searchFile_looks hres.search).sameSizes none).trans (fileOpen_sameSizes hopen)
    exact hsame.iSize p hlt (by simp)
  · have hsame := ((searchFile_looks hres.search).sameSizes (some record.parentDir.inode)).trans
      ((fileCreate_sameSizes hcreate).trans ((dirClose_looks hclose).sameSizes _))
    refine hsame.iSize p hlt fun heq => hreg record s₁ hres.search i ?_
    rw [hp, heq]

/-- `sys_open` opens a file at its start, and moves no other position. -/
theorem sysOpen_pos {pathname : List UInt8} {flags : Nat} {fd : Int} (hs : NodesOk s)
    (hpos : PosOk s) (hreg : OnRegular s pathname)
    (h : sysOpen s pathname flags = .ok (fd, s')) : PosOk s' := by
  intro i q hq hflag
  rcases sysOpen_table hs h with ⟨-, href⟩ | ⟨n, slot, p, -, henter, -⟩
  · rcases href.table i with hsame | ⟨-, hnone⟩
    · rw [hsame] at hq hflag ⊢
      rw [sysOpen_sizes hs hreg h hq]
      exact hpos i q hq hflag
    · rw [hnone] at hq
      cases hq
  · rw [henter.fileTable] at hq hflag ⊢
    by_cases hi : i = slot
    · rw [hi, Function.update_self]
      exact Nat.zero_le _
    · rw [Function.update_of_ne hi] at hq hflag ⊢
      rw [sysOpen_sizes hs hreg h hq]
      exact hpos i q hq hflag

/-! ## The system -/

/-- The calls, by any process `t`.  What the console, the keyboard and the pipes
    return is `r`; they do not touch the files. -/
inductive PosOp where
  | open (t : Nat) (pathname : List UInt8) (flags : Nat)
  | read (t : Nat) (fd : Int) (buf : Mem) (count : Nat) (r : Int)
  | write (t : Nat) (fd : Int) (buf : Mem) (count : Nat) (r : Int)
  | lseek (t : Nat) (fd offset : Int) (whence : Nat)

/-- What the call does. -/
def PosOp.run (s : FsState) : PosOp → Outcome FsState
  | .open t pathname flags => do
      let (_, s) ← sysOpen (s.runAs t) pathname flags
      .ok s
  | .read t fd buf count r => do
      let (_, _, s) ← sysRead (fun s _ buf _ => .ok (r, buf, s)) (s.runAs t) fd buf count
      .ok s
  | .write t fd buf count r => do
      let (_, s) ← sysWrite (fun s _ _ _ => .ok (r, s)) (s.runAs t) fd buf count
      .ok s
  | .lseek t fd offset whence => do
      let (_, s) ← sysLseek (s.runAs t) fd offset whence
      .ok s

/-- The call is on regular files. -/
def PosOp.Regular (s : FsState) : PosOp → Prop
  | .open t pathname _ => OnRegular (s.runAs t) pathname
  | _ => True

/-- Files are opened, read, written and sought in from boot on. -/
def posSystem : System FsState PosOp where
  init := Booted
  next s op s' := op.Regular s ∧ op.run s = .ok s'

/-- The call does not write nothing to an empty file. -/
def NoEmptyWrite (s : FsState) : PosOp → Prop
  | .write t fd _ count _ => ∀ globalFd p, fdLocal2Global (s.runAs t) fd = .ok globalFd →
      (s.fileTable globalFd).fdInode = some p → count = 0 → (s.inodes p).iSize ≠ 0
  | _ => True

/-- Each call leaves the positions inside their files, unless it writes nothing
    to an empty file. -/
theorem PosOp.step {op : PosOp} (hs : NodesOk s) (hpos : PosOk s) (hreg : op.Regular s)
    (hsome : NoEmptyWrite s op) (h : op.run s = .ok s') : NodesOk s' ∧ PosOk s' := by
  cases op with
  | «open» t pathname flags =>
      obtain ⟨⟨fd, s₁⟩, hcall, h⟩ := Outcome.bind_eq_ok.1 h
      cases h
      have hpos' := sysOpen_pos (hs.runAs t) hpos hreg hcall
      rcases sysOpen_table (hs.runAs t) hcall with ⟨-, href⟩ | ⟨n, slot, p, -, henter, -⟩
      · exact ⟨href.nodesOk (hs.runAs t), hpos'⟩
      · exact ⟨henter.nodesOk (hs.runAs t), hpos'⟩
  | read t fd buf count r =>
      obtain ⟨⟨n, buf', s₁⟩, hcall, h⟩ := Outcome.bind_eq_ok.1 h
      cases h
      unfold sysRead at hcall
      split at hcall
      · cases hcall
        exact ⟨hs.runAs t, hpos⟩
      · obtain ⟨globalFd, -, hcall⟩ := Outcome.bind_eq_ok.1 hcall
        split at hcall
        · cases hcall
          exact ⟨hs.runAs t, hpos⟩
        · rename_i hfile
          rw [not_or, Bool.not_eq_true] at hfile
          exact fileRead_pos (hs.runAs t) hpos hfile.2 hcall
  | write t fd buf count r =>
      obtain ⟨⟨n, s₁⟩, hcall, h⟩ := Outcome.bind_eq_ok.1 h
      cases h
      unfold sysWrite at hcall
      split at hcall
      · cases hcall
        exact ⟨hs.runAs t, hpos⟩
      · obtain ⟨globalFd, hglobal, hcall⟩ := Outcome.bind_eq_ok.1 hcall
        split at hcall
        · cases hcall
          exact ⟨hs.runAs t, hpos⟩
        · split at hcall
          · exact fileWrite_pos (hs.runAs t) hpos (fun p hp => hsome globalFd p hglobal hp) hcall
          · cases hcall
            exact ⟨hs.runAs t, hpos⟩
  | lseek t fd offset whence =>
      obtain ⟨⟨n, s₁⟩, hcall, h⟩ := Outcome.bind_eq_ok.1 h
      cases h
      exact sysLseek_pos (hs.runAs t) hpos hcall

/-! ## Runs -/

/-- In every run in which no call writes nothing to an empty file, the positions
    stay inside the files. -/
theorem posOk_of_noEmptyWrite (h : (posSystem.restrict NoEmptyWrite).Reachable s) : PosOk s := by
  have hboth : NodesOk s ∧ PosOk s := by
    apply h.invariant
    · rintro s ⟨⟨s₀, hinit⟩, -⟩
      obtain ⟨hnodes, htable⟩ := filesysInit_spec hinit
      refine ⟨hnodes, fun i p hp => ?_⟩
      rw [htable] at hp
      cases hp
    · rintro s op s' ⟨hs, hpos⟩ ⟨hsome, hreg, hrun⟩
      exact PosOp.step hs hpos hreg hsome hrun
  exact hboth.2

/-- In a new file table no file is open, so creating one is regular. -/
theorem regular_open {s : FsState} (hinit : filesysInit tinyFs = .ok s) (t flags : Nat)
    (pathname : List UInt8) : (PosOp.open t pathname flags).Regular s := by
  intro record t' _ i
  rw [show ((s.runAs t).fileTable i).fdInode = none from (filesysInit_spec hinit).2 i]
  simp

/-- Process 1 creates "/a", writes five bytes, goes back to the third and reads
    two. -/
theorem posOk_of_noEmptyWrite_read : ∃ s₀ s, filesysInit tinyFs = .ok s₀
    ∧ ((PosOp.open 1 [slash, 97] 6).run s₀ >>= fun s =>
      (PosOp.write 1 3 Mem.zero 5 0).run s >>= fun s =>
      (PosOp.lseek 1 3 2 1).run s >>= fun s =>
      (PosOp.read 1 3 Mem.zero 2 0).run s) = .ok s
    ∧ (s.fileTable 3).fdInode = some 1 ∧ (s.fileTable 3).fdPos = 4 ∧ (s.inodes 1).iSize = 5
    ∧ PosOk s := by
  obtain ⟨s₀, hinit⟩ := tinyFs_boots
  have hend : (filesysInit tinyFs >>= fun s =>
      (PosOp.open 1 [slash, 97] 6).run s >>= fun s =>
      (PosOp.write 1 3 Mem.zero 5 0).run s >>= fun s =>
      (PosOp.lseek 1 3 2 1).run s >>= fun s =>
      (PosOp.read 1 3 Mem.zero 2 0).run s).returns (fun s => decide (
        (s.fileTable 3).fdInode = some 1 ∧ (s.fileTable 3).fdPos = 4
          ∧ (s.inodes 1).iSize = 5)) = true := by
    decide +kernel
  rw [hinit, Outcome.ok_bind] at hend
  obtain ⟨s, hrun, hstate⟩ := Outcome.returns_iff.1 hend
  obtain ⟨hfd, hat, hsize⟩ := of_decide_eq_true hstate
  obtain ⟨s₁, hopen, hrest⟩ := Outcome.bind_eq_ok.1 hrun
  obtain ⟨s₂, hwrite, hrest⟩ := Outcome.bind_eq_ok.1 hrest
  obtain ⟨s₃, hseek, hread⟩ := Outcome.bind_eq_ok.1 hrest
  have hboot := System.reachable_init (M := posSystem.restrict NoEmptyWrite) (booted_tinyFs hinit)
  have hnext₁ : (posSystem.restrict NoEmptyWrite).next s₀ (.open 1 [slash, 97] 6) s₁ :=
    ⟨trivial, regular_open hinit 1 6 [slash, 97], hopen⟩
  have hnext₂ : (posSystem.restrict NoEmptyWrite).next s₁ (.write 1 3 Mem.zero 5 0) s₂ :=
    ⟨fun _ _ _ _ hzero => absurd hzero (by decide), trivial, hwrite⟩
  have hnext₃ : (posSystem.restrict NoEmptyWrite).next s₂ (.lseek 1 3 2 1) s₃ :=
    ⟨trivial, trivial, hseek⟩
  have hnext₄ : (posSystem.restrict NoEmptyWrite).next s₃ (.read 1 3 Mem.zero 2 0) s :=
    ⟨trivial, trivial, hread⟩
  exact ⟨s₀, s, hinit, hrun, hfd, hat, hsize,
    posOk_of_noEmptyWrite ((((hboot.next hnext₁).next hnext₂).next hnext₃).next hnext₄)⟩

/-- Process 1 creates "/a" for writing and writes nothing to it. -/
theorem empty_write : ∃ s, posSystem.Reachable s ∧ ¬ PosOk s := by
  obtain ⟨s₀, hinit⟩ := tinyFs_boots
  have hend : (filesysInit tinyFs >>= fun s =>
      (PosOp.open 1 [slash, 97] 5).run s >>= fun s =>
      (PosOp.write 1 3 Mem.zero 0 0).run s).returns (fun s => decide (
        (s.fileTable 3).fdInode = some 1 ∧ (s.fileTable 3).fdFlag = 5
          ∧ (s.fileTable 3).fdPos = 2 ^ 32 - 1 ∧ (s.inodes 1).iSize = 0)) = true := by
    decide +kernel
  rw [hinit, Outcome.ok_bind] at hend
  obtain ⟨s, hrun, hstate⟩ := Outcome.returns_iff.1 hend
  obtain ⟨s₁, hopen, hwrite⟩ := Outcome.bind_eq_ok.1 hrun
  obtain ⟨hfd, hflag, hat, hsize⟩ := of_decide_eq_true hstate
  have hreach := System.reachable_init (M := posSystem) (booted_tinyFs hinit)
  have hreg := regular_open hinit 1 5 [slash, 97]
  have hreg' : (PosOp.write 1 3 Mem.zero 0 0).Regular s₁ := trivial
  refine ⟨s, (hreach.next ⟨hreg, hopen⟩).next ⟨hreg', hwrite⟩, fun hpos => ?_⟩
  have hle := hpos 3 1 hfd (by rw [hflag]; decide)
  rw [hat, hsize] at hle
  exact absurd hle (by decide)

end Fs
end JackOS
