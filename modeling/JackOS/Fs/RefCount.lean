/-
  JackOS.Fs.RefCount

  `i_open_cnt` as a count of holders.  `refs p` is how many hold node `p`; a
  node is on the list of open inodes as long as somebody holds it.  A search
  holds the directory it stands in, and gives back what it took except for the
  directory it hands to its caller.
-/

import JackOS.Fs.Descriptors

namespace JackOS
namespace Fs

open Base

variable {s s' : FsState} {refs : Nat → Nat} {p : Nat}

/-- The open nodes are those somebody holds, and count their holders. -/
structure RefCounts (s : FsState) (refs : Nat → Nat) : Prop where
  nodup : s.part.openInodes.Nodup
  lt : ∀ p ∈ s.part.openInodes, p < s.nextNode
  count : ∀ p ∈ s.part.openInodes, (s.inodes p).iOpenCnt = refs p
  held : ∀ p, p ∈ s.part.openInodes ↔ 0 < refs p
  small : ∀ p, refs p < 2 ^ 32

/-- One more holder of node `p`. -/
def addRef (refs : Nat → Nat) (p : Nat) : Nat → Nat := Function.update refs p (refs p + 1)

/-- `k` more holders fit into every count. -/
def Room (refs : Nat → Nat) (k : Nat) : Prop := ∀ p, refs p + k < 2 ^ 32

@[simp] theorem addRef_self (refs : Nat → Nat) (p : Nat) : addRef refs p p = refs p + 1 :=
  Function.update_self ..

theorem addRef_of_ne {q : Nat} (h : q ≠ p) : addRef refs p q = refs q :=
  Function.update_of_ne h _ _

theorem le_addRef (refs : Nat → Nat) (p q : Nat) : refs q ≤ addRef refs p q := by
  by_cases hq : q = p
  · rw [hq, addRef_self]
    exact Nat.le_succ _
  · rw [addRef_of_ne hq]

theorem addRef_le (refs : Nat → Nat) (p q : Nat) : addRef refs p q ≤ refs q + 1 := by
  by_cases hq : q = p
  · rw [hq, addRef_self]
  · rw [addRef_of_ne hq]
    exact Nat.le_succ _

theorem Room.addRef {k : Nat} (h : Room refs (k + 1)) (p : Nat) : Room (Fs.addRef refs p) k := by
  intro q
  have := addRef_le refs p q
  have := h q
  omega

theorem Room.mono {j k : Nat} (h : Room refs k) (hjk : j ≤ k) : Room refs j := by
  intro q
  have := h q
  omega

/-- Changes that touch neither the list nor a count. -/
theorem RefCounts.congr (h : RefCounts s refs) (hopen : s'.part.openInodes = s.part.openInodes)
    (hnext : s.nextNode ≤ s'.nextNode)
    (hcnt : ∀ p ∈ s.part.openInodes, (s'.inodes p).iOpenCnt = (s.inodes p).iOpenCnt) :
    RefCounts s' refs := by
  refine ⟨?_, fun p hp => ?_, fun p hp => ?_, fun p => ?_, h.small⟩
  · rw [hopen]
    exact h.nodup
  · rw [hopen] at hp
    exact Nat.lt_of_lt_of_le (h.lt p hp) hnext
  · rw [hopen] at hp
    rw [hcnt p hp, h.count p hp]
  · rw [hopen]
    exact h.held p

theorem RefCounts.countMalloc (h : RefCounts s refs) : RefCounts s.countMalloc refs :=
  h.congr rfl (Nat.le_refl _) (fun _ _ => rfl)

theorem RefCounts.writes (h : RefCounts s refs) (hw : Writes s s') : RefCounts s' refs := by
  refine h.congr ?_ ?_ (fun p _ => hw.iOpenCnt p)
  · rw [hw.same]
  · rw [hw.same]

theorem RefCounts.sysMalloc {r : Option HeapBlock} (h : RefCounts s refs)
    (hcall : Fs.sysMalloc s = (r, s')) : RefCounts s' refs := by
  rw [sysMalloc_state hcall]
  exact h.countMalloc

/-- A node that nobody held. -/
theorem RefCounts.push {nodes : Nat → Inode} (h : RefCounts s refs)
    (hfresh : p ∉ s.part.openInodes) (hopen : s'.part.openInodes = p :: s.part.openInodes)
    (hlt : p < s'.nextNode) (hnext : s.nextNode ≤ s'.nextNode) (hnodes : s'.inodes = nodes)
    (hcnt : ∀ q ∈ s.part.openInodes, (nodes q).iOpenCnt = (s.inodes q).iOpenCnt)
    (hone : (nodes p).iOpenCnt = 1) : RefCounts s' (addRef refs p) := by
  have hzero : refs p = 0 := by
    have := mt (h.held p).2 hfresh
    omega
  refine ⟨?_, fun q hq => ?_, fun q hq => ?_, fun q => ?_, fun q => ?_⟩
  · rw [hopen]
    exact List.nodup_cons.2 ⟨hfresh, h.nodup⟩
  · rw [hopen] at hq
    rcases List.mem_cons.1 hq with rfl | hq
    · exact hlt
    · exact Nat.lt_of_lt_of_le (h.lt q hq) hnext
  · rw [hopen] at hq
    rw [hnodes]
    rcases List.mem_cons.1 hq with rfl | hq
    · rw [addRef_self, hzero, hone]
    · have hne : q ≠ p := fun heq => hfresh (heq ▸ hq)
      rw [addRef_of_ne hne, hcnt q hq, h.count q hq]
  · rw [hopen, List.mem_cons]
    by_cases hq : q = p
    · rw [hq, addRef_self]
      exact iff_of_true (.inl rfl) (Nat.succ_pos _)
    · rw [addRef_of_ne hq, ← h.held q]
      exact ⟨fun hor => hor.resolve_left hq, .inr⟩
  · by_cases hq : q = p
    · rw [hq, addRef_self, hzero]
      norm_num
    · rw [addRef_of_ne hq]
      exact h.small q

/-- `i_open_cnt++` of an open node. -/
theorem RefCounts.increment (h : RefCounts s refs) (hroom : Room refs 1)
    (hp : p ∈ s.part.openInodes) :
    RefCounts (s.setInode p { s.inodes p with iOpenCnt := u32 ((s.inodes p).iOpenCnt + 1) })
      (addRef refs p) := by
  refine ⟨h.nodup, h.lt, fun q hq => ?_, fun q => ?_, fun q => ?_⟩
  · rw [FsState.setInode_inodes]
    by_cases hqp : q = p
    · rw [hqp, Function.update_self, addRef_self]
      show u32 ((s.inodes p).iOpenCnt + 1) = _
      rw [h.count p hp, u32_of_lt (hroom p)]
    · rw [Function.update_of_ne hqp, addRef_of_ne hqp]
      exact h.count q hq
  · show q ∈ s.part.openInodes ↔ _
    by_cases hqp : q = p
    · rw [hqp, addRef_self]
      exact iff_of_true hp (Nat.succ_pos _)
    · rw [addRef_of_ne hqp]
      exact h.held q
  · have := addRef_le refs p q
    have := hroom q
    omega

theorem RefCounts.inodeOpen {inodeNo : Nat} (h : RefCounts s refs) (hroom : Room refs 1)
    (hcall : Fs.inodeOpen s inodeNo = .ok (p, s')) : RefCounts s' (addRef refs p) := by
  unfold Fs.inodeOpen at hcall
  cases hfind : findOpen s inodeNo with
  | some q =>
      rw [hfind] at hcall
      cases hcall
      exact h.increment hroom (List.mem_of_find?_eq_some hfind)
  | none =>
      rw [hfind] at hcall
      simp only at hcall
      cases hnode : Fs.sysMalloc s with
      | mk node s₁ =>
      cases hbuf : Fs.sysMalloc s₁ with
      | mk inodeBuf s₂ =>
      rw [hnode] at hcall
      simp only [hbuf] at hcall
      have h₂ := (h.sysMalloc hnode).sysMalloc hbuf
      cases node with
      | none => cases hcall
      | some node =>
        cases inodeBuf with
        | none => cases hcall
        | some inodeBuf =>
          obtain ⟨ino, -, hcall⟩ := Outcome.bind_eq_ok.1 hcall
          obtain ⟨_, -, hcall⟩ := Outcome.bind_eq_ok.1 hcall
          cases hcall
          refine h₂.push (fun hmem => Nat.lt_irrefl _ (h₂.lt _ hmem)) rfl (Nat.lt_succ_self _)
            (Nat.le_succ _) rfl (fun q hq => ?_) ?_
          · rw [FsState.pushOpen, FsState.setPart_inodes, FsState.newNode_inodes,
              Function.update_of_ne (Nat.ne_of_lt (h₂.lt q hq))]
          · rw [FsState.pushOpen, FsState.setPart_inodes, FsState.newNode_inodes,
              Function.update_self]

/-- Giving a node back: it leaves the list when nobody else holds it. -/
theorem RefCounts.inodeClose (h : RefCounts s (addRef refs p)) :
    RefCounts (Fs.inodeClose s p) refs := by
  have hmem : p ∈ s.part.openInodes := (h.held p).2 (by rw [addRef_self]; exact Nat.succ_pos _)
  have hcnt : subU32 (s.inodes p).iOpenCnt 1 = refs p := by
    have hsmall := h.small p
    rw [addRef_self] at hsmall
    rw [h.count p hmem, addRef_self, subU32_of_le (Nat.le_add_left 1 _) hsmall]
    rfl
  have hcounts : ∀ q ∈ s.part.openInodes,
      ((s.setInode p { s.inodes p with iOpenCnt := refs p }).inodes q).iOpenCnt = refs q := by
    intro q hq
    rw [FsState.setInode_inodes]
    by_cases hqp : q = p
    · rw [hqp, Function.update_self]
    · rw [Function.update_of_ne hqp, h.count q hq, addRef_of_ne hqp]
  have hsmall : ∀ q, refs q < 2 ^ 32 := fun q =>
    Nat.lt_of_le_of_lt (le_addRef refs p q) (h.small q)
  unfold Fs.inodeClose
  simp only [hcnt]
  by_cases hzero : refs p = 0
  · rw [if_pos hzero]
    have hmem_erase : ∀ q, q ∈ s.part.openInodes.erase p ↔ q ≠ p ∧ q ∈ s.part.openInodes :=
      fun q => h.nodup.mem_erase_iff
    refine ⟨h.nodup.erase p, fun q hq => h.lt q ((hmem_erase q).1 hq).2, fun q hq => ?_,
      fun q => ?_, hsmall⟩
    · exact hcounts q ((hmem_erase q).1 hq).2
    · show q ∈ s.part.openInodes.erase p ↔ _
      rw [hmem_erase]
      by_cases hqp : q = p
      · rw [hqp, hzero]
        exact iff_of_false (fun hand => hand.1 rfl) (Nat.lt_irrefl 0)
      · rw [h.held q, addRef_of_ne hqp]
        exact ⟨And.right, fun hq => ⟨hqp, hq⟩⟩
  · rw [if_neg hzero]
    refine ⟨h.nodup, h.lt, hcounts, fun q => ?_, hsmall⟩
    show q ∈ s.part.openInodes ↔ _
    by_cases hqp : q = p
    · rw [hqp]
      exact iff_of_true hmem (Nat.pos_of_ne_zero hzero)
    · rw [h.held q, addRef_of_ne hqp]

/-! ## Directories -/

/-- The holders when `dir` is open: `root_dir` is held for good. -/
def dirHeld (refs : Nat → Nat) (dir : Dir) : Nat → Nat :=
  match dir.block with
  | none => refs
  | some _ => addRef refs dir.inode

theorem le_dirHeld (refs : Nat → Nat) (dir : Dir) (q : Nat) : refs q ≤ dirHeld refs dir q := by
  unfold dirHeld
  cases dir.block with
  | none => exact Nat.le_refl _
  | some block => exact le_addRef refs _ q

theorem Room.dirHeld {k : Nat} (h : Room refs (k + 1)) (dir : Dir) :
    Room (Fs.dirHeld refs dir) k := by
  unfold Fs.dirHeld
  split
  · exact h.mono (Nat.le_succ k)
  · exact h.addRef _

theorem RefCounts.dirOpen {inodeNo : Nat} {dir : Dir} (h : RefCounts s refs) (hroom : Room refs 1)
    (hcall : Fs.dirOpen s inodeNo = .ok (dir, s')) : RefCounts s' (dirHeld refs dir) := by
  unfold Fs.dirOpen at hcall
  cases hblock : Fs.sysMalloc s with
  | mk block s₁ =>
  rw [hblock] at hcall
  cases block with
  | none => cases hcall
  | some block =>
    obtain ⟨⟨q, s₂⟩, hopen, hcall⟩ := Outcome.bind_eq_ok.1 hcall
    cases hcall
    exact (h.sysMalloc hblock).inodeOpen hroom hopen

theorem RefCounts.dirClose {dir : Dir} (h : RefCounts s (dirHeld refs dir))
    (hcall : Fs.dirClose s dir = .ok s') : RefCounts s' refs := by
  unfold Fs.dirClose at hcall
  unfold dirHeld at h
  cases hblock : dir.block with
  | none =>
      rw [hblock] at hcall h
      cases hcall
      exact h
  | some block =>
      rw [hblock] at hcall h
      obtain ⟨_, -, hcall⟩ := Outcome.bind_eq_ok.1 hcall
      rw [← Except.ok.inj hcall]
      exact h.inodeClose

theorem RefCounts.searchDirEntry {name : List UInt8} {r : Option DirEntry} (h : RefCounts s refs)
    (hcall : Fs.searchDirEntry s p name = .ok (r, s')) : RefCounts s' refs := by
  unfold Fs.searchDirEntry at hcall
  cases hall : Fs.sysMalloc s with
  | mk allBlocksLba s₁ =>
  rw [hall] at hcall
  cases allBlocksLba with
  | none => cases hcall
  | some allBlocksLba =>
    obtain ⟨all, -, hcall⟩ := Outcome.bind_eq_ok.1 hcall
    cases hbuf : Fs.sysMalloc s₁ with
    | mk buf s₂ =>
    rw [hbuf] at hcall
    cases buf with
    | none => cases hcall
    | some buf =>
      obtain ⟨dirE, -, hcall⟩ := Outcome.bind_eq_ok.1 hcall
      obtain ⟨_, -, hcall⟩ := Outcome.bind_eq_ok.1 hcall
      obtain ⟨_, -, hcall⟩ := Outcome.bind_eq_ok.1 hcall
      cases hcall
      exact (h.sysMalloc hall).sysMalloc hbuf

theorem RefCounts.searchEnd {parentDir : Dir} {parentInodeNo : Nat} {dirE : Option DirEntry}
    {searchedPath : List UInt8} {r : Option Nat} {record : PathSearchRecord}
    (h : RefCounts s (dirHeld refs parentDir)) (hroom : Room refs 1)
    (hcall : Fs.searchEnd parentDir parentInodeNo dirE searchedPath s = .ok (r, record, s')) :
    RefCounts s' (dirHeld refs record.parentDir) := by
  obtain ⟨s₁, hclose, hcall⟩ := Outcome.bind_eq_ok.1 hcall
  obtain ⟨⟨dir, s₂⟩, hopen, hcall⟩ := Outcome.bind_eq_ok.1 hcall
  cases dirE with
  | none => cases hcall
  | some dirE =>
    cases hcall
    exact (h.dirClose hclose).dirOpen hroom hopen

/-- The walk holds the directory it stands in. -/
theorem RefCounts.searchLoop {fuel : Nat} {name : List UInt8} {subPath : Option (List UInt8)}
    {parentDir : Dir} {parentInodeNo : Nat} {dirE : Option DirEntry} {searchedPath : List UInt8}
    {r : Option Nat} {record : PathSearchRecord} (h : RefCounts s (dirHeld refs parentDir))
    (hroom : Room refs 1)
    (hcall : Fs.searchLoop fuel name subPath parentDir parentInodeNo dirE searchedPath s
      = .ok (r, record, s')) : RefCounts s' (dirHeld refs record.parentDir) := by
  induction fuel generalizing name subPath parentDir parentInodeNo dirE searchedPath s with
  | zero =>
      unfold Fs.searchLoop at hcall
      split at hcall
      · exact h.searchEnd hroom hcall
      · cases hcall
  | succ fuel ih =>
      unfold Fs.searchLoop at hcall
      split at hcall
      · exact h.searchEnd hroom hcall
      · obtain ⟨_, -, hcall⟩ := Outcome.bind_eq_ok.1 hcall
        obtain ⟨searchedPath', -, hcall⟩ := Outcome.bind_eq_ok.1 hcall
        obtain ⟨⟨found, s₁⟩, hsearch, hcall⟩ := Outcome.bind_eq_ok.1 hcall
        have h₁ := h.searchDirEntry hsearch
        cases found with
        | none =>
            cases hcall
            exact h₁
        | some de =>
            obtain ⟨⟨name', subPath'⟩, -, hcall⟩ := Outcome.bind_eq_ok.1 hcall
            simp only at hcall
            split at hcall
            · obtain ⟨s₂, hclose, hcall⟩ := Outcome.bind_eq_ok.1 hcall
              obtain ⟨⟨dir, s₃⟩, hopen, hcall⟩ := Outcome.bind_eq_ok.1 hcall
              exact ih ((h₁.dirClose hclose).dirOpen hroom hopen) hcall
            · split at hcall
              · cases hcall
                exact h₁
              · exact ih h₁ hcall

/-- `search_file` leaves the parent directory it found open. -/
theorem RefCounts.searchFile {pathname : List UInt8} {r : Option Nat} {record : PathSearchRecord}
    (h : RefCounts s refs) (hroom : Room refs 1)
    (hcall : Fs.searchFile s pathname = .ok (r, record, s')) :
    RefCounts s' (dirHeld refs record.parentDir) := by
  unfold Fs.searchFile at hcall
  split at hcall
  · cases hcall
    exact h
  · obtain ⟨_, -, hcall⟩ := Outcome.bind_eq_ok.1 hcall
    obtain ⟨⟨name, subPath⟩, -, hcall⟩ := Outcome.bind_eq_ok.1 hcall
    exact RefCounts.searchLoop (show RefCounts s (dirHeld refs s.rootDir) from h) hroom hcall

end Fs
end JackOS
