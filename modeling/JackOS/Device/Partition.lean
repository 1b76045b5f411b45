/-
  JackOS.Device.Partition

  `partition_scan` of device/ide.c: the partition tables of a disk, from the
  boot sector on and along the links of the extended boot records.  What the
  scan keeps outside its frames, the counters, the base address and the list of
  partitions, is in `ScanState`.

  A frame is left early at the eighth logical partition, and only that frame;
  the frames around it go on with their tables.  `Walks` follows the tables of
  a disk in this order and counts what it meets, without arrays or assertions.

  The frames lie on the one page of the main thread's kernel stack, above its
  PCB.  How many of them fit is for the compiler to say, so it is a parameter: a
  further call runs over the PCB.
-/

import JackOS.Base.Bytes
import JackOS.Device.Ide
import JackOS.Lib.List

namespace JackOS
namespace Device

open Base

/-! ## Partition tables -/

/-- `partition_table_entry_t`, without the fields for cylinders, heads and the
    boot flag. -/
structure TableEntry where
  fsType : UInt8
  startLba : Nat
  secCnt : Nat
deriving DecidableEq, Repr

/-- Entry `i` of the table in the boot sector at `lba`. -/
def tableEntry (disk : Mem) (lba i : Nat) : TableEntry where
  fsType := disk (512 * lba + 446 + 16 * i + 4)
  startLba := disk.le32 (512 * lba + 446 + 16 * i + 8)
  secCnt := disk.le32 (512 * lba + 446 + 16 * i + 12)

/-- `bs->partition_table` -/
def partitionTable (disk : Mem) (lba : Nat) : List TableEntry :=
  [tableEntry disk lba 0, tableEntry disk lba 1, tableEntry disk lba 2, tableEntry disk lba 3]

/-- The entry of an extended partition, or of a link. -/
def TableEntry.Extended (e : TableEntry) : Prop := e.fsType = 0x5

instance (e : TableEntry) : Decidable e.Extended := inferInstanceAs (Decidable (_ = _))

/-! ## State -/

/-- `partition_t`, as far as the scan fills it in; `no` is the number at the end
    of the name. -/
structure Part where
  startLba : Nat
  secCnt : Nat
  no : Nat
deriving DecidableEq, Repr

/-- What a link of the list of partitions can point to. -/
inductive PartNode where
  | null
  | head
  | tail
  /-- `prim_parts[i].part_tag` of a disk. -/
  | prim (hd i : Nat)
  /-- `logic_parts[i].part_tag` of a disk. -/
  | logic (hd i : Nat)
deriving DecidableEq, Repr

/-- `partition_list` -/
def partitionList : Lib.ListT PartNode := ⟨.head, .tail⟩

/-- The link fields of the partitions. -/
abbrev partLinks : LinkStore (Links PartNode) PartNode := Links.store .null

/-- The arrays `prim_parts` and `logic_parts` of the disks, the global variables
    of the scan, and the links. -/
structure ScanState where
  primParts : Nat → Nat → Part
  logicParts : Nat → Nat → Part
  pNo : Nat
  lNo : Nat
  extLbaBase : Nat
  links : Links PartNode

/-! ## Scanning -/

/-- `prim_parts[i] = part` -/
def storePrim (hd i : Nat) (part : Part) (s : ScanState) : Outcome ScanState :=
  if i < 4 then
    .ok { s with primParts := Function.update s.primParts hd (Function.update (s.primParts hd) i part) }
  else .error .undefined

/-- `logic_parts[i] = part` -/
def storeLogic (hd i : Nat) (part : Part) (s : ScanState) : Outcome ScanState :=
  if i < 8 then
    .ok { s with logicParts := Function.update s.logicParts hd (Function.update (s.logicParts hd) i part) }
  else .error .undefined

/-- `list_append(&partition_list, ..)` -/
def appendPart (node : PartNode) (s : ScanState) : ScanState :=
  { s with links := Lib.listAppend partLinks s.links partitionList node }

/-- A primary partition. -/
def addPrimary (hd extLba : Nat) (e : TableEntry) (s : ScanState) : Outcome ScanState := do
  let s ← storePrim hd s.pNo ⟨(extLba + e.startLba) % 2 ^ 32, e.secCnt, s.pNo + 1⟩ s
  let s := appendPart (.prim hd s.pNo) s
  let s := { s with pNo := (s.pNo + 1) % 2 ^ 8 }
  require (s.pNo < 4)
  .ok s

/-- A logical partition. -/
def addLogic (hd extLba : Nat) (e : TableEntry) (s : ScanState) : Outcome ScanState := do
  let s ← storeLogic hd s.lNo ⟨(extLba + e.startLba) % 2 ^ 32, e.secCnt, s.lNo + 5⟩ s
  let s := appendPart (.logic hd s.lNo) s
  .ok { s with lNo := (s.lNo + 1) % 2 ^ 8 }

/-- The sector that an extended entry leads to, with the base `base`. -/
def nextTable (base : Nat) (e : TableEntry) : Nat :=
  if base ≠ 0 then (e.startLba + base) % 2 ^ 32 else e.startLba

/-- `ext_lba_base` when the entry was read. -/
def nextBase (base : Nat) (e : TableEntry) : Nat := if base ≠ 0 then base else e.startLba

/-- `while (partition_idx++ < 4)`, over the entries that are left; `scan` is the
    recursive call. -/
def scanEntries (scan : Nat → ScanState → Outcome ScanState) (hd extLba : Nat) :
    List TableEntry → ScanState → Outcome ScanState
  | [], s => .ok s
  | e :: es, s =>
      if e.Extended then do
        let s ← scan (nextTable s.extLbaBase e) { s with extLbaBase := nextBase s.extLbaBase e }
        scanEntries scan hd extLba es s
      else if e.fsType ≠ 0 then
        if extLba = 0 then do
          let s ← addPrimary hd extLba e s
          scanEntries scan hd extLba es s
        else do
          let s ← addLogic hd extLba e s
          if s.lNo ≥ 8 then .ok s else scanEntries scan hd extLba es s
      else scanEntries scan hd extLba es s

/-- `partition_scan`, with room for `frames` frames on the stack.  The boot sector
    is read into a block of its own, which the heap is taken to have. -/
def partitionScan (disk : Mem) (hd : Nat) : (frames extLba : Nat) → ScanState → Outcome ScanState
  | 0, _, _ => .error .undefined
  | frames + 1, extLba, s => do
      -- in ide_read
      require (extLba ≤ maxLba)
      scanEntries (partitionScan disk hd frames) hd extLba (partitionTable disk extLba) s

/-! ## More room -/

variable {disk : Mem} {hd extLba frames : Nat} {s s' : ScanState} {e : TableEntry}
  {es : List TableEntry}

theorem scanEntries_mono {scan scan' : Nat → ScanState → Outcome ScanState}
    (hscan : ∀ lba s s', scan lba s = .ok s' → scan' lba s = .ok s')
    (h : scanEntries scan hd extLba es s = .ok s') :
    scanEntries scan' hd extLba es s = .ok s' := by
  induction es generalizing s with
  | nil => exact h
  | cons e es ih =>
      rw [scanEntries] at h ⊢
      split at h
      · rename_i hext
        obtain ⟨s₁, hcall, hrest⟩ := Outcome.bind_eq_ok.1 h
        rw [if_pos hext, hscan _ _ _ hcall]
        exact ih hrest
      · rename_i hext
        rw [if_neg hext]
        split at h
        · rename_i htype
          rw [if_pos htype]
          split at h
          · rename_i hroot
            obtain ⟨s₁, hadd, hrest⟩ := Outcome.bind_eq_ok.1 h
            rw [if_pos hroot, hadd]
            exact ih hrest
          · rename_i hroot
            obtain ⟨s₁, hadd, hrest⟩ := Outcome.bind_eq_ok.1 h
            rw [if_neg hroot, hadd]
            simp only [Outcome.ok_bind]
            split at hrest
            · rename_i hfull
              rw [if_pos hfull]
              exact hrest
            · rename_i hfull
              rw [if_neg hfull]
              exact ih hrest
        · rename_i htype
          rw [if_neg htype]
          exact ih h

/-- A scan that returns does so with more room, too. -/
theorem partitionScan_mono {more : Nat} (hle : frames ≤ more)
    (h : partitionScan disk hd frames extLba s = .ok s') :
    partitionScan disk hd more extLba s = .ok s' := by
  induction frames generalizing more extLba s s' with
  | zero => cases h
  | succ frames ih =>
      obtain ⟨more, rfl⟩ : ∃ k, more = k + 1 := ⟨more - 1, by omega⟩
      rw [partitionScan] at h ⊢
      obtain ⟨_, hlba, h⟩ := Outcome.bind_eq_ok.1 h
      rw [hlba]
      exact scanEntries_mono (fun lba s s' hcall => ih (by omega) hcall) h

/-- Empty entries do nothing. -/
theorem scanEntries_used {scan : Nat → ScanState → Outcome ScanState} :
    scanEntries scan hd extLba es s
      = scanEntries scan hd extLba (es.filter fun e => e.fsType ≠ 0) s := by
  induction es generalizing s with
  | nil => rfl
  | cons e es ih =>
      by_cases htype : e.fsType = 0
      · have hext : ¬ e.Extended := by
          rw [TableEntry.Extended, htype]
          decide
        rw [List.filter_cons_of_neg (by simpa using htype), scanEntries, if_neg hext,
          if_neg (not_not.2 htype), ih]
      · rw [List.filter_cons_of_pos (by simpa using htype), scanEntries, scanEntries]
        simp only [ih]

/-- A table without extended entries needs no recursive call. -/
theorem scanEntries_noExtended (scan scan' : Nat → ScanState → Outcome ScanState)
    (hes : ∀ e ∈ es, ¬ e.Extended) :
    scanEntries scan hd extLba es s = scanEntries scan' hd extLba es s := by
  induction es generalizing s with
  | nil => rfl
  | cons e es ih =>
      have hext := hes e List.mem_cons_self
      have ih := fun s => ih (s := s) fun e' he' => hes e' (List.mem_cons_of_mem e he')
      rw [scanEntries, scanEntries, if_neg hext, if_neg hext]
      simp only [ih]

/-! ## Walking the tables -/

/-- What a walk has met: the base address of the links, and the numbers of
    primary and of logical partitions. -/
structure Met where
  base : Nat
  prims : Nat
  logics : Nat

/-- What a scan has met. -/
def ScanState.met (s : ScanState) : Met := ⟨s.extLbaBase, s.pNo, s.lNo⟩

/-- The walk over the entries of the table at `lba`, into the tables that they
    lead to, at most `frames` tables deep: a table is left behind its logical
    partition once there are eight. -/
inductive Walks (disk : Mem) : (frames lba : Nat) → List TableEntry → Met → Met → Prop where
  | done {frames lba m} : Walks disk frames lba [] m m
  | skip {frames lba e es m m'} : e.fsType = 0 → Walks disk frames lba es m m' →
      Walks disk frames lba (e :: es) m m'
  | link {frames lba e es m m₁ m'} : e.Extended → nextTable m.base e ≤ maxLba →
      Walks disk frames (nextTable m.base e) (partitionTable disk (nextTable m.base e))
        { m with base := nextBase m.base e } m₁ →
      Walks disk (frames + 1) lba es m₁ m' → Walks disk (frames + 1) lba (e :: es) m m'
  | primary {frames lba e es m m'} : ¬ e.Extended → e.fsType ≠ 0 → lba = 0 →
      Walks disk frames lba es { m with prims := m.prims + 1 } m' →
      Walks disk frames lba (e :: es) m m'
  | logic {frames lba e es m m'} : ¬ e.Extended → e.fsType ≠ 0 → lba ≠ 0 → m.logics + 1 < 8 →
      Walks disk frames lba es { m with logics := m.logics + 1 } m' →
      Walks disk frames lba (e :: es) m m'
  | last {frames lba e es m} : ¬ e.Extended → e.fsType ≠ 0 → lba ≠ 0 → 8 ≤ m.logics + 1 →
      Walks disk frames lba (e :: es) m { m with logics := m.logics + 1 }

/-- The partitions that the kernel has room for. -/
def Met.Fits (m : Met) : Prop := m.prims ≤ 3 ∧ m.logics ≤ 8

variable {m m' : Met}

/-- The numbers only grow. -/
theorem Walks.le (h : Walks disk frames extLba es m m') : m.prims ≤ m'.prims ∧ m.logics ≤ m'.logics := by
  induction h with
  | done => exact ⟨Nat.le_refl _, Nat.le_refl _⟩
  | skip _ _ ih => exact ih
  | link _ _ _ _ ih₁ ih => exact ⟨ih₁.1.trans ih.1, ih₁.2.trans ih.2⟩
  | primary _ _ _ _ ih => exact ⟨Nat.le_of_succ_le ih.1, ih.2⟩
  | logic _ _ _ _ _ ih => exact ⟨ih.1, Nat.le_of_succ_le ih.2⟩
  | last => exact ⟨Nat.le_refl _, Nat.le_succ _⟩

/-- The state with one more primary partition, at `lba`. -/
def ScanState.withPrimary (s : ScanState) (hd lba secCnt : Nat) : ScanState where
  primParts := Function.update s.primParts hd
    (Function.update (s.primParts hd) s.pNo ⟨lba, secCnt, s.pNo + 1⟩)
  logicParts := s.logicParts
  pNo := s.pNo + 1
  lNo := s.lNo
  extLbaBase := s.extLbaBase
  links := Lib.listAppend partLinks s.links partitionList (.prim hd s.pNo)

/-- The state with one more logical partition, at `lba`. -/
def ScanState.withLogic (s : ScanState) (hd lba secCnt : Nat) : ScanState where
  primParts := s.primParts
  logicParts := Function.update s.logicParts hd
    (Function.update (s.logicParts hd) s.lNo ⟨lba, secCnt, s.lNo + 5⟩)
  pNo := s.pNo
  lNo := s.lNo + 1
  extLbaBase := s.extLbaBase
  links := Lib.listAppend partLinks s.links partitionList (.logic hd s.lNo)

/-- A primary partition is added while there are less than three. -/
theorem addPrimary_eq_ok : addPrimary hd extLba e s = .ok s' ↔
    s.pNo + 1 ≤ 3 ∧ s' = s.withPrimary hd ((extLba + e.startLba) % 2 ^ 32) e.secCnt := by
  rw [addPrimary, storePrim]
  by_cases hroom : s.pNo + 1 ≤ 3
  · have hmod : (s.pNo + 1) % 2 ^ 8 = s.pNo + 1 := Nat.mod_eq_of_lt (by omega)
    rw [if_pos (by omega)]
    simp only [Outcome.ok_bind, appendPart, hmod]
    rw [require_pos (by omega)]
    exact ⟨fun h => ⟨hroom, (Except.ok.inj h).symm⟩, fun h => congrArg Except.ok h.2.symm⟩
  · refine ⟨fun h => absurd h ?_, fun h => absurd h.1 hroom⟩
    split
    · have hmod : (s.pNo + 1) % 2 ^ 8 = s.pNo + 1 := Nat.mod_eq_of_lt (by omega)
      simp only [Outcome.ok_bind, appendPart, hmod]
      rw [require_neg (by omega)]
      exact fun h => (by cases h)
    · exact fun h => (by cases h)

/-- A logical partition is added while there are less than eight. -/
theorem addLogic_eq_ok : addLogic hd extLba e s = .ok s' ↔
    s.lNo + 1 ≤ 8 ∧ s' = s.withLogic hd ((extLba + e.startLba) % 2 ^ 32) e.secCnt := by
  rw [addLogic, storeLogic]
  by_cases hroom : s.lNo + 1 ≤ 8
  · have hmod : (s.lNo + 1) % 2 ^ 8 = s.lNo + 1 := Nat.mod_eq_of_lt (by omega)
    rw [if_pos (by omega)]
    simp only [Outcome.ok_bind, appendPart, hmod]
    exact ⟨fun h => ⟨hroom, (Except.ok.inj h).symm⟩, fun h => congrArg Except.ok h.2.symm⟩
  · rw [if_neg (by omega)]
    exact ⟨fun h => (by cases h), fun h => absurd h.1 hroom⟩

/-- The entries of a table that were scanned were walked. -/
theorem walks_of_scanEntries {scan : Nat → ScanState → Outcome ScanState}
    (hscan : ∀ lba s s', scan lba s = .ok s' → s.met.Fits → ∃ inner, frames = inner + 1
      ∧ lba ≤ maxLba ∧ Walks disk inner lba (partitionTable disk lba) s.met s'.met ∧ s'.met.Fits)
    (hfits : s.met.Fits) (h : scanEntries scan hd extLba es s = .ok s') :
    Walks disk frames extLba es s.met s'.met ∧ s'.met.Fits := by
  induction es generalizing s with
  | nil =>
      cases h
      exact ⟨.done, hfits⟩
  | cons e es ih =>
      rw [scanEntries] at h
      split at h
      · rename_i hext
        obtain ⟨s₁, hcall, hrest⟩ := Outcome.bind_eq_ok.1 h
        obtain ⟨inner, rfl, hlba, hwalk, hfits₁⟩ := hscan _ _ _ hcall hfits
        obtain ⟨hwalk', hfits'⟩ := ih hfits₁ hrest
        exact ⟨.link hext hlba hwalk hwalk', hfits'⟩
      · rename_i hext
        split at h
        · rename_i htype
          split at h
          · rename_i hroot
            obtain ⟨s₁, hadd, hrest⟩ := Outcome.bind_eq_ok.1 h
            obtain ⟨hroom, rfl⟩ := addPrimary_eq_ok.1 hadd
            have hfits₁ : (s.withPrimary hd ((extLba + e.startLba) % 2 ^ 32) e.secCnt).met.Fits :=
              ⟨hroom, hfits.2⟩
            obtain ⟨hwalk', hfits'⟩ := ih hfits₁ hrest
            exact ⟨.primary hext htype hroot hwalk', hfits'⟩
          · rename_i hroot
            obtain ⟨s₁, hadd, hrest⟩ := Outcome.bind_eq_ok.1 h
            obtain ⟨hroom, rfl⟩ := addLogic_eq_ok.1 hadd
            have hfits₁ : (s.withLogic hd ((extLba + e.startLba) % 2 ^ 32) e.secCnt).met.Fits :=
              ⟨hfits.1, hroom⟩
            split at hrest
            · rename_i hfull
              cases hrest
              exact ⟨.last hext htype hroot hfull, hfits₁⟩
            · rename_i hfull
              obtain ⟨hwalk', hfits'⟩ := ih hfits₁ hrest
              exact ⟨.logic hext htype hroot (Nat.lt_of_not_le hfull) hwalk', hfits'⟩
        · rename_i htype
          obtain ⟨hwalk', hfits'⟩ := ih hfits h
          exact ⟨.skip (not_not.1 htype) hwalk', hfits'⟩

/-- A scan that returns has walked the tables, and had room for what it met. -/
theorem walks_of_partitionScan (hfits : s.met.Fits)
    (h : partitionScan disk hd frames extLba s = .ok s') : ∃ inner, frames = inner + 1
      ∧ extLba ≤ maxLba ∧ Walks disk inner extLba (partitionTable disk extLba) s.met s'.met
      ∧ s'.met.Fits := by
  induction frames generalizing extLba s s' with
  | zero => cases h
  | succ inner ih =>
      rw [partitionScan] at h
      obtain ⟨_, hlba, h⟩ := Outcome.bind_eq_ok.1 h
      rw [require_eq_ok] at hlba
      exact ⟨inner, rfl, hlba,
        walks_of_scanEntries (fun _ _ _ hcall hfits => ih hfits hcall) hfits h⟩

/-- Where there is room, what can be walked can be scanned. -/
theorem scanEntries_of_walks (hd : Nat) (h : Walks disk frames extLba es m m') (hfits : m'.Fits)
    (hmet : s.met = m) :
    ∃ s', scanEntries (partitionScan disk hd frames) hd extLba es s = .ok s' ∧ s'.met = m' := by
  induction h generalizing s with
  | done => exact ⟨s, rfl, hmet⟩
  | skip htype _ ih =>
      obtain ⟨s', hrun, hmet'⟩ := ih hfits hmet
      refine ⟨s', ?_, hmet'⟩
      rw [scanEntries, if_neg (by rw [TableEntry.Extended, htype]; decide),
        if_neg (not_not.2 htype)]
      exact hrun
  | @link frames lba e es m m₁ m' hext hlba hwalk₁ hwalk ih₁ ih =>
      obtain ⟨hp, hl⟩ := hwalk.le
      subst hmet
      obtain ⟨s₁, hrun₁, hmet₁⟩ :=
        ih₁ (s := { s with extLbaBase := nextBase s.extLbaBase e })
          ⟨hp.trans hfits.1, hl.trans hfits.2⟩ rfl
      obtain ⟨s', hrun, hmet'⟩ := ih hfits hmet₁
      refine ⟨s', ?_, hmet'⟩
      have hcall : partitionScan disk hd (frames + 1) (nextTable s.extLbaBase e)
          { s with extLbaBase := nextBase s.extLbaBase e } = .ok s₁ := by
        have hread : nextTable s.extLbaBase e ≤ maxLba := hlba
        rw [partitionScan, require_pos hread]
        exact hrun₁
      rw [scanEntries, if_pos hext, hcall]
      exact hrun
  | @primary frames lba e es m m' hext htype hroot hwalk ih =>
      have hroom := hwalk.le.1.trans hfits.1
      subst hmet
      have hadd : addPrimary hd 0 e s = .ok (s.withPrimary hd ((0 + e.startLba) % 2 ^ 32) e.secCnt) :=
        addPrimary_eq_ok.2 ⟨hroom, rfl⟩
      obtain ⟨s', hrun, hmet'⟩ := ih
        (s := s.withPrimary hd ((0 + e.startLba) % 2 ^ 32) e.secCnt) hfits rfl
      refine ⟨s', ?_, hmet'⟩
      rw [scanEntries, if_neg hext, if_pos htype, if_pos hroot, hroot, hadd]
      rw [hroot] at hrun
      exact hrun
  | @logic frames lba e es m m' hext htype hroot hroom _ ih =>
      subst hmet
      have hadd : addLogic hd lba e s = .ok (s.withLogic hd ((lba + e.startLba) % 2 ^ 32) e.secCnt) :=
        addLogic_eq_ok.2 ⟨Nat.le_of_lt hroom, rfl⟩
      obtain ⟨s', hrun, hmet'⟩ := ih
        (s := s.withLogic hd ((lba + e.startLba) % 2 ^ 32) e.secCnt) hfits rfl
      refine ⟨s', ?_, hmet'⟩
      rw [scanEntries, if_neg hext, if_pos htype, if_neg hroot, hadd]
      simp only [Outcome.ok_bind]
      have hleft : ¬ (s.withLogic hd ((lba + e.startLba) % 2 ^ 32) e.secCnt).lNo ≥ 8 :=
        Nat.not_le.2 hroom
      rw [if_neg hleft]
      exact hrun
  | @last frames lba e es m hext htype hroot hfull =>
      subst hmet
      have hadd : addLogic hd lba e s = .ok (s.withLogic hd ((lba + e.startLba) % 2 ^ 32) e.secCnt) :=
        addLogic_eq_ok.2 ⟨hfits.2, rfl⟩
      refine ⟨s.withLogic hd ((lba + e.startLba) % 2 ^ 32) e.secCnt, ?_, rfl⟩
      rw [scanEntries, if_neg hext, if_pos htype, if_neg hroot, hadd]
      simp only [Outcome.ok_bind]
      exact if_pos hfull

/-! ## Any disk -/

/-- The scan of a disk returns: it ends before the stack does, no assertion fails,
    and no store is outside the arrays. -/
def ScansRobustly (disk : Mem) (hd frames : Nat) (s : ScanState) : Prop :=
  ∃ s', partitionScan disk hd frames 0 s = .ok s'

/-- The tables of the disk can be walked, are nested no deeper than there is room
    for frames, and hold no more partitions than the kernel has room for. -/
def Walkable (disk : Mem) (frames base : Nat) : Prop :=
  ∃ inner m, frames = inner + 1
    ∧ Walks disk inner 0 (partitionTable disk 0) ⟨base, 0, 0⟩ m ∧ m.Fits

/-- What is walked from the boot sector can be scanned. -/
theorem partitionScan_of_walks (hd : Nat) (h : Walks disk frames 0 (partitionTable disk 0) s.met m')
    (hfits : m'.Fits) : ∃ s', partitionScan disk hd (frames + 1) 0 s = .ok s' ∧ s'.met = m' := by
  obtain ⟨s', hrun, hmet⟩ := scanEntries_of_walks hd h hfits rfl
  refine ⟨s', ?_, hmet⟩
  rw [partitionScan, require_pos (Nat.zero_le _)]
  exact hrun

/-- A disk that can be scanned can be walked. -/
theorem walkable_of_scansRobustly (hprim : s.pNo = 0) (hlogic : s.lNo = 0)
    (h : ScansRobustly disk hd frames s) : Walkable disk frames s.extLbaBase := by
  obtain ⟨s', hrun⟩ := h
  have hmet : s.met = ⟨s.extLbaBase, 0, 0⟩ := by
    rw [ScanState.met, hprim, hlogic]
  have hfits : s.met.Fits := by
    rw [hmet]
    exact ⟨Nat.zero_le _, Nat.zero_le _⟩
  obtain ⟨inner, hinner, -, hwalk, hfits'⟩ := walks_of_partitionScan hfits hrun
  rw [hmet] at hwalk
  exact ⟨inner, s'.met, hinner, hwalk, hfits'⟩

/-- Scanning is robust for exactly these disks. -/
theorem scansRobustly_iff (hprim : s.pNo = 0) (hlogic : s.lNo = 0) :
    ScansRobustly disk hd frames s ↔ Walkable disk frames s.extLbaBase := by
  constructor
  · exact walkable_of_scansRobustly hprim hlogic
  · rintro ⟨inner, m, rfl, hwalk, hfits⟩
    have hmet : s.met = ⟨s.extLbaBase, 0, 0⟩ := by
      rw [ScanState.met, hprim, hlogic]
    rw [← hmet] at hwalk
    obtain ⟨s', hrun, -⟩ := partitionScan_of_walks hd hwalk hfits
    exact ⟨s', hrun⟩

/-! ## Disks with given tables -/

/-- The sixteen bytes of an entry. -/
def TableEntry.bytes (e : TableEntry) : List UInt8 :=
  [0, 0, 0, 0, e.fsType, 0, 0, 0]
    ++ (List.range 4).map (fun i => UInt8.ofNat (e.startLba / 256 ^ i))
    ++ (List.range 4).map (fun i => UInt8.ofNat (e.secCnt / 256 ^ i))

/-- A disk with partition tables in some of its sectors, and zeros elsewhere. -/
def diskOf (tables : List (Nat × List TableEntry)) : Mem := fun a =>
  match tables.find? (fun t => t.1 == a / 512) with
  | none => 0
  | some t => if a % 512 < 446 then 0 else (t.2.flatMap TableEntry.bytes).getD (a % 512 - 446) 0

/-- The state in which `ide_init` starts: the variables are zero. -/
def scanInit : ScanState where
  primParts _ _ := ⟨0, 0, 0⟩
  logicParts _ _ := ⟨0, 0, 0⟩
  pNo := 0
  lNo := 0
  extLbaBase := 0
  links := ⟨fun _ => .null, fun _ => .null⟩

/-- A primary partition, and an extended one with a logical partition. -/
def linkDisk : Mem := diskOf [(0, [⟨0x83, 63, 100⟩, ⟨0x5, 200, 500⟩]), (200, [⟨0x83, 1, 40⟩])]

/-- The link takes a second frame. -/
theorem scansRobustly_iff_link :
    ScansRobustly linkDisk 1 2 scanInit ∧ ¬ ScansRobustly linkDisk 1 1 scanInit := by
  have hboot : partitionTable linkDisk 0
      = [⟨0x83, 63, 100⟩, ⟨0x5, 200, 500⟩, ⟨0, 0, 0⟩, ⟨0, 0, 0⟩] := by decide +kernel
  have hlink : partitionTable linkDisk 200
      = [⟨0x83, 1, 40⟩, ⟨0, 0, 0⟩, ⟨0, 0, 0⟩, ⟨0, 0, 0⟩] := by decide +kernel
  constructor
  · refine (scansRobustly_iff rfl rfl).2 ⟨1, ⟨200, 1, 1⟩, rfl, ?_, by decide, by decide⟩
    rw [hboot]
    refine .primary (by decide) (by decide) rfl (.link rfl (by decide) ?_
      (.skip rfl (.skip rfl .done)))
    change Walks linkDisk 0 200 (partitionTable linkDisk 200) ⟨200, 1, 0⟩ ⟨200, 1, 1⟩
    rw [hlink]
    exact .logic (by decide) (by decide) (by decide) (by decide)
      (.skip rfl (.skip rfl (.skip rfl .done)))
  · intro hscan
    obtain ⟨inner, m, hinner, hwalk, -⟩ := (scansRobustly_iff rfl rfl).1 hscan
    obtain rfl : inner = 0 := by omega
    rw [hboot] at hwalk
    cases hwalk with
    | skip htype => exact absurd htype (by decide)
    | primary _ _ _ hrest =>
        cases hrest with
        | skip htype => exact absurd htype (by decide)
        | primary hplain => exact hplain rfl
        | logic hplain => exact hplain rfl
        | last hplain => exact hplain rfl
    | logic _ _ hroot => exact hroot rfl
    | last _ _ hroot => exact hroot rfl

/-- Four primary partitions. -/
def fourDisk : Mem :=
  diskOf [(0, [⟨0x83, 63, 100⟩, ⟨0x83, 163, 100⟩, ⟨0x83, 263, 100⟩, ⟨0x83, 363, 100⟩])]

/-- The fourth primary partition stops the kernel, however many frames fit. -/
theorem not_scansRobustly_four : ¬ ∃ frames, ScansRobustly fourDisk 1 frames scanInit := by
  rintro ⟨frames, s', hrun⟩
  have hstop : (partitionScan fourDisk 1 1 0 scanInit).returns (fun _ => true) = false := by
    decide +kernel
  have hnone : ∀ e ∈ partitionTable fourDisk 0, ¬ e.Extended := by decide +kernel
  cases frames with
  | zero => cases hrun
  | succ frames =>
      have hsame : partitionScan fourDisk 1 (frames + 1) 0 scanInit
          = partitionScan fourDisk 1 1 0 scanInit := by
        rw [partitionScan, partitionScan, scanEntries_noExtended _ _ hnone]
      rw [← hsame, hrun] at hstop
      cases hstop

end Device
end JackOS
