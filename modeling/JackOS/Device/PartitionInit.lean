/-
  JackOS.Device.PartitionInit

  The slave disks of two channels one after the other: `ide_init` scans them,
  and `filesys_init` examines the partitions for file systems.  The base address
  of the links is not reset between two disks, so that the scan of the second
  disk depends on the first as soon as both have an extended partition.
-/

import JackOS.Device.Partition

namespace JackOS
namespace Device

open Base

/-! ## `ide_init` -/

/-- `if (dev_no != 0) partition_scan(hd, 0)`; the disks are numbered `sda`, `sdb`
    and so on. -/
def scanDevice (disks : Nat → Mem) (frames channelNo devNo : Nat) (s : ScanState) :
    Outcome ScanState :=
  if devNo ≠ 0 then
    partitionScan (disks (channelNo * 2 + devNo)) (channelNo * 2 + devNo) frames 0 s
  else .ok s

/-- `p_no = l_no = 0` -/
def ScanState.reset (s : ScanState) : ScanState := { s with pNo := 0, lNo := 0 }

/-- One turn of `while (dev_no < 2)`.  What `identify_disk` reads is only printed. -/
def initDevice (disks : Nat → Mem) (frames channelNo devNo : Nat) (s : ScanState) :
    Outcome ScanState := do
  let s ← scanDevice disks frames channelNo devNo s
  .ok s.reset

/-- `while (channel_no < channel_cnt)`, from `channelNo` on. -/
def initChannels (disks : Nat → Mem) (frames : Nat) :
    (left channelNo : Nat) → ScanState → Outcome ScanState
  | 0, _, s => .ok s
  | left + 1, channelNo, s => do
      -- PANIC for a third channel
      require (channelNo < 2)
      let s ← initDevice disks frames channelNo 0 s
      let s ← initDevice disks frames channelNo 1 s
      initChannels disks frames left (channelNo + 1) s

/-- `ide_init`, as far as it fills in partitions. -/
def ideInit (disks : Nat → Mem) (frames channelCnt : Nat) (s : ScanState) : Outcome ScanState :=
  initChannels disks frames channelCnt 0 s

/-! ## `filesys_init` -/

/-- The local variable `partition_idx`, the partitions that were examined, and
    the contents of the disks. -/
structure SearchState where
  partitionIdx : Nat
  seen : List (Nat × Part)
  disks : Nat → Mem

/-- `*partition` -/
def readPart (s : ScanState) : PartNode → Outcome Part
  | .prim hd i => if i < 4 then .ok (s.primParts hd i) else .error .undefined
  | .logic hd i => if i < 8 then .ok (s.logicParts hd i) else .error .undefined
  | _ => .error .undefined

/-- `partition++` -/
def PartNode.succ : PartNode → PartNode
  | .prim hd i => .prim hd (i + 1)
  | .logic hd i => .logic hd (i + 1)
  | node => node

/-- The first block of a partition is read; `examine` compares the magic number,
    and formats the partition where it is another one. -/
def examinePart (examine : Nat → Part → (Nat → Mem) → Outcome (Nat → Mem)) (hd : Nat) (part : Part)
    (f : SearchState) : Outcome SearchState :=
  if part.secCnt ≠ 0 then do
    -- in ide_read
    require ((part.startLba + 1) % 2 ^ 32 ≤ maxLba)
    let disks ← examine hd part f.disks
    .ok { f with seen := f.seen ++ [(hd, part)], disks := disks }
  else .ok f

/-- `while (partition_idx < 12)` -/
def searchParts (examine : Nat → Part → (Nat → Mem) → Outcome (Nat → Mem)) (s : ScanState) (hd : Nat) :
    (fuel : Nat) → PartNode → SearchState → Outcome SearchState
  | 0, _, _ => .error .diverges
  | fuel + 1, partition, f =>
      if f.partitionIdx < 12 then do
        let partition := if f.partitionIdx = 4 then .logic hd 0 else partition
        let part ← readPart s partition
        let f ← examinePart examine hd part f
        searchParts examine s hd fuel partition.succ { f with partitionIdx := f.partitionIdx + 1 }
      else .ok f

/-- `while (channel_no < channel_cnt)`, from `channelNo` on, over the slave
    disks. -/
def searchChannels (examine : Nat → Part → (Nat → Mem) → Outcome (Nat → Mem)) (s : ScanState)
    (fuel : Nat) : (left channelNo : Nat) → SearchState → Outcome SearchState
  | 0, _, f => .ok f
  | left + 1, channelNo, f => do
      let hd := channelNo * 2 + 1
      let f ← searchParts examine s hd fuel (.prim hd 0) f
      searchChannels examine s fuel left (channelNo + 1) f

/-- The search of `filesys_init`. -/
def filesysInit (examine : Nat → Part → (Nat → Mem) → Outcome (Nat → Mem)) (s : ScanState)
    (fuel channelCnt : Nat) (disks : Nat → Mem) : Outcome SearchState :=
  searchChannels examine s fuel channelCnt 0 ⟨0, [], disks⟩

/-! ## Independence -/

/-- A disk without partitions. -/
def blank : Mem := fun _ => 0

/-- `ide_init` with two channels ends in `s`. -/
def Inits (frames : Nat) (disks : Nat → Mem) (s : ScanState) : Prop :=
  ideInit disks frames 2 scanInit = .ok s

/-- What is recorded and examined of `sdd` is as if `sdb` had no partitions. -/
structure ScansApart (frames : Nat) (disks : Nat → Mem) : Prop where
  returns : ∀ s₀, Inits frames (Function.update disks 1 blank) s₀ → ∃ s, Inits frames disks s
  records : ∀ s s₀, Inits frames disks s → Inits frames (Function.update disks 1 blank) s₀ →
    s.primParts 3 = s₀.primParts 3 ∧ s.logicParts 3 = s₀.logicParts 3
  examines : ∀ s s₀, Inits frames disks s → Inits frames (Function.update disks 1 blank) s₀ →
    ∀ examine fuel fuel₀ f f₀, filesysInit examine s fuel 2 disks = .ok f →
      filesysInit examine s₀ fuel₀ 2 (Function.update disks 1 blank) = .ok f₀ →
      (f.seen.filter fun p => p.1 = 3) = f₀.seen.filter fun p => p.1 = 3

/-- The boot sector has an entry of an extended partition. -/
def HasExtended (disk : Mem) : Prop := ∃ e ∈ partitionTable disk 0, e.Extended

/-! ## What a scan can change -/

variable {disk : Mem} {disks : Nat → Mem} {hd lba frames : Nat} {s s' t : ScanState} {e : TableEntry}
  {es : List TableEntry}

/-- A relation that every store of the scan keeps is kept by the scan. -/
theorem partitionScan_rel {R : ScanState → ScanState → Prop} (hrefl : ∀ s, R s s)
    (htrans : ∀ s s₁ s', R s s₁ → R s₁ s' → R s s')
    (hprim : ∀ lba e s s', addPrimary hd lba e s = .ok s' → R s s')
    (hlogic : ∀ lba e s s', addLogic hd lba e s = .ok s' → R s s')
    (hbase : ∀ (s : ScanState) b, R s { s with extLbaBase := b })
    (h : partitionScan disk hd frames lba s = .ok s') : R s s' := by
  have hentries : ∀ scan : Nat → ScanState → Outcome ScanState,
      (∀ lba s s', scan lba s = .ok s' → R s s') →
      ∀ lba es s s', scanEntries scan hd lba es s = .ok s' → R s s' := by
    intro scan hscan lba es
    induction es with
    | nil =>
        intro s s' h
        cases h
        exact hrefl s
    | cons e es ih =>
        intro s s' h
        rw [scanEntries] at h
        split at h
        · obtain ⟨s₁, hcall, hrest⟩ := Outcome.bind_eq_ok.1 h
          exact htrans _ _ _ (hbase s _) (htrans _ _ _ (hscan _ _ _ hcall) (ih _ _ hrest))
        · split at h
          · split at h
            · obtain ⟨s₁, hadd, hrest⟩ := Outcome.bind_eq_ok.1 h
              exact htrans _ _ _ (hprim _ _ _ _ hadd) (ih _ _ hrest)
            · obtain ⟨s₁, hadd, hrest⟩ := Outcome.bind_eq_ok.1 h
              split at hrest
              · cases hrest
                exact hlogic _ _ _ _ hadd
              · exact htrans _ _ _ (hlogic _ _ _ _ hadd) (ih _ _ hrest)
          · exact ih _ _ h
  induction frames generalizing lba s s' with
  | zero => cases h
  | succ frames ih =>
      rw [partitionScan] at h
      obtain ⟨_, _, h⟩ := Outcome.bind_eq_ok.1 h
      exact hentries _ (fun _ _ _ hcall => ih hcall) _ _ _ _ h

/-- The arrays of the other disks stay as they are. -/
theorem partitionScan_others {hd' : Nat} (hne : hd' ≠ hd)
    (h : partitionScan disk hd frames lba s = .ok s') :
    s'.primParts hd' = s.primParts hd' ∧ s'.logicParts hd' = s.logicParts hd' := by
  refine partitionScan_rel
    (R := fun s s' => s'.primParts hd' = s.primParts hd' ∧ s'.logicParts hd' = s.logicParts hd')
    (fun _ => ⟨rfl, rfl⟩) (fun _ _ _ h h' => ⟨h'.1.trans h.1, h'.2.trans h.2⟩) ?_ ?_
    (fun _ _ => ⟨rfl, rfl⟩) h
  · intro lba e s s' hadd
    obtain ⟨-, rfl⟩ := addPrimary_eq_ok.1 hadd
    exact ⟨Function.update_of_ne hne _ _, rfl⟩
  · intro lba e s s' hadd
    obtain ⟨-, rfl⟩ := addLogic_eq_ok.1 hadd
    exact ⟨rfl, Function.update_of_ne hne _ _⟩

/-! ## Two scans of one disk -/

/-- Two states are alike to the scan of `hd`, the base address apart. -/
structure Alike (hd : Nat) (s t : ScanState) : Prop where
  prims : t.primParts hd = s.primParts hd
  logics : t.logicParts hd = s.logicParts hd
  pNo : t.pNo = s.pNo
  lNo : t.lNo = s.lNo

theorem Alike.addPrimary (h : Alike hd s t) (hadd : addPrimary hd lba e s = .ok s') :
    ∃ t', Device.addPrimary hd lba e t = .ok t' ∧ Alike hd s' t' ∧ s'.extLbaBase = s.extLbaBase
      ∧ t'.extLbaBase = t.extLbaBase := by
  obtain ⟨hroom, rfl⟩ := addPrimary_eq_ok.1 hadd
  rw [← h.pNo] at hroom
  refine ⟨_, addPrimary_eq_ok.2 ⟨hroom, rfl⟩, ⟨?_, h.logics, ?_, h.lNo⟩, rfl, rfl⟩
  · simp only [ScanState.withPrimary, Function.update_self, h.prims, h.pNo]
  · exact congrArg (· + 1) h.pNo

theorem Alike.addLogic (h : Alike hd s t) (hadd : addLogic hd lba e s = .ok s') :
    ∃ t', Device.addLogic hd lba e t = .ok t' ∧ Alike hd s' t' ∧ s'.extLbaBase = s.extLbaBase
      ∧ t'.extLbaBase = t.extLbaBase := by
  obtain ⟨hroom, rfl⟩ := addLogic_eq_ok.1 hadd
  rw [← h.lNo] at hroom
  refine ⟨_, addLogic_eq_ok.2 ⟨hroom, rfl⟩, ⟨h.prims, ?_, h.pNo, ?_⟩, rfl, rfl⟩
  · simp only [ScanState.withLogic, Function.update_self, h.logics, h.lNo]
  · exact congrArg (· + 1) h.lNo

/-- Where the base addresses agree, or no link is followed, both scans do the
    same. -/
theorem scanEntries_alike {scan : Nat → ScanState → Outcome ScanState}
    (hscan : ∀ lba s t s', Alike hd s t → t.extLbaBase = s.extLbaBase → scan lba s = .ok s' →
      ∃ t', scan lba t = .ok t' ∧ Alike hd s' t' ∧ t'.extLbaBase = s'.extLbaBase)
    (halike : Alike hd s t) (hbase : (∃ e ∈ es, e.Extended) → t.extLbaBase = s.extLbaBase)
    (h : scanEntries scan hd lba es s = .ok s') :
    ∃ t', scanEntries scan hd lba es t = .ok t' ∧ Alike hd s' t'
      ∧ (t.extLbaBase = s.extLbaBase → t'.extLbaBase = s'.extLbaBase) := by
  induction es generalizing s t with
  | nil =>
      cases h
      exact ⟨t, rfl, halike, id⟩
  | cons e es ih =>
      have hbase' : (∃ e ∈ es, e.Extended) → t.extLbaBase = s.extLbaBase := fun ⟨x, hx, hext⟩ =>
        hbase ⟨x, List.mem_cons_of_mem e hx, hext⟩
      rw [scanEntries] at h ⊢
      split at h
      · rename_i hext
        have heq := hbase ⟨e, List.mem_cons_self, hext⟩
        obtain ⟨s₁, hcall, hrest⟩ := Outcome.bind_eq_ok.1 h
        obtain ⟨t₁, hcall', halike₁, heq₁⟩ := hscan _ { s with extLbaBase := nextBase s.extLbaBase e }
          { t with extLbaBase := nextBase s.extLbaBase e } _
          ⟨halike.prims, halike.logics, halike.pNo, halike.lNo⟩ rfl hcall
        obtain ⟨t', hrest', halike', heq'⟩ := ih halike₁ (fun _ => heq₁) hrest
        rw [if_pos hext, heq, hcall']
        exact ⟨t', hrest', halike', fun _ => heq' heq₁⟩
      · rename_i hext
        rw [if_neg hext]
        split at h
        · rename_i htype
          rw [if_pos htype]
          split at h
          · rename_i hroot
            obtain ⟨s₁, hadd, hrest⟩ := Outcome.bind_eq_ok.1 h
            obtain ⟨t₁, hadd', halike₁, hs, ht⟩ := halike.addPrimary hadd
            obtain ⟨t', hrest', halike', heq'⟩ := ih halike₁
              (fun hx => by rw [hs, ht, hbase' hx]) hrest
            rw [if_pos hroot, hadd']
            exact ⟨t', hrest', halike', fun heq => heq' (by rw [hs, ht, heq])⟩
          · rename_i hroot
            obtain ⟨s₁, hadd, hrest⟩ := Outcome.bind_eq_ok.1 h
            obtain ⟨t₁, hadd', halike₁, hs, ht⟩ := halike.addLogic hadd
            rw [if_neg hroot, hadd']
            simp only [Outcome.ok_bind]
            rw [halike₁.lNo]
            split at hrest
            · rename_i hfull
              cases hrest
              rw [if_pos hfull]
              exact ⟨t₁, rfl, halike₁, fun heq => by rw [hs, ht, heq]⟩
            · rename_i hfull
              rw [if_neg hfull]
              obtain ⟨t', hrest', halike', heq'⟩ := ih halike₁
                (fun hx => by rw [hs, ht, hbase' hx]) hrest
              exact ⟨t', hrest', halike', fun heq => heq' (by rw [hs, ht, heq])⟩
        · rename_i htype
          rw [if_neg htype]
          exact ih halike hbase' h

theorem partitionScan_alike (halike : Alike hd s t)
    (hbase : (∃ e ∈ partitionTable disk lba, e.Extended) → t.extLbaBase = s.extLbaBase)
    (h : partitionScan disk hd frames lba s = .ok s') :
    ∃ t', partitionScan disk hd frames lba t = .ok t' ∧ Alike hd s' t'
      ∧ (t.extLbaBase = s.extLbaBase → t'.extLbaBase = s'.extLbaBase) := by
  induction frames generalizing lba s t s' with
  | zero => cases h
  | succ frames ih =>
      rw [partitionScan] at h ⊢
      obtain ⟨_, hlba, h⟩ := Outcome.bind_eq_ok.1 h
      rw [hlba]
      refine scanEntries_alike (fun lba s t s' halike heq hcall => ?_) halike hbase h
      obtain ⟨t', hrun, halike', heq'⟩ := ih halike (fun _ => heq) hcall
      exact ⟨t', hrun, halike', heq' heq⟩

/-! ## The base address -/

variable {m m' : Met} {x : TableEntry}

/-- The first extended entry of a table. -/
def firstExtended (es : List TableEntry) : Option TableEntry := es.find? fun e => e.Extended

theorem firstExtended_cons_pos (hext : e.Extended) : firstExtended (e :: es) = some e := by
  rw [firstExtended, List.find?_cons_of_pos]
  simpa using hext

theorem firstExtended_cons_neg (hext : ¬ e.Extended) :
    firstExtended (e :: es) = firstExtended es := by
  rw [firstExtended, List.find?_cons_of_neg]
  · rfl
  · simpa using hext

theorem firstExtended_of_hasExtended (h : HasExtended disk) :
    ∃ x, firstExtended (partitionTable disk 0) = some x := by
  obtain ⟨e, he, hext⟩ := h
  apply Option.isSome_iff_exists.1
  rw [firstExtended, List.find?_isSome]
  exact ⟨e, he, by simpa using hext⟩

theorem not_extended_of_empty (htype : e.fsType = 0) : ¬ e.Extended := by
  rw [TableEntry.Extended, htype]
  decide

/-- Without links the base address stays. -/
theorem Walks.base_of_noExtended (h : Walks disk frames lba es m m') (hes : ∀ e ∈ es, ¬ e.Extended) :
    m'.base = m.base := by
  induction h with
  | done => rfl
  | skip _ _ ih => exact ih fun e he => hes e (List.mem_cons_of_mem _ he)
  | link hext => exact absurd hext (hes _ List.mem_cons_self)
  | primary _ _ _ _ ih => exact ih fun e he => hes e (List.mem_cons_of_mem _ he)
  | logic _ _ _ _ _ ih => exact ih fun e he => hes e (List.mem_cons_of_mem _ he)
  | last => rfl

/-- Once it is set, the base address stays. -/
theorem Walks.base_of_ne_zero (h : Walks disk frames lba es m m') (hbase : m.base ≠ 0) :
    m'.base = m.base := by
  induction h with
  | done => rfl
  | skip _ _ ih => exact ih hbase
  | @link frames lba e es m m₁ m' _ _ _ _ ih₁ ih =>
      have hkeep : nextBase m.base e = m.base := if_pos hbase
      have hfirst : m₁.base = m.base := (ih₁ (by rw [hkeep]; exact hbase)).trans hkeep
      rw [ih (by rw [hfirst]; exact hbase), hfirst]
  | primary _ _ _ _ ih => exact ih hbase
  | logic _ _ _ _ _ ih => exact ih hbase
  | last => rfl

/-- The first link of the boot sector is followed. -/
theorem Walks.first_le (h : Walks disk frames lba es m m') (hlba : lba = 0)
    (hfirst : firstExtended es = some x) : nextTable m.base x ≤ maxLba := by
  induction h with
  | done => cases hfirst
  | skip htype _ ih => exact ih hlba (firstExtended_cons_neg (not_extended_of_empty htype) ▸ hfirst)
  | link hext hread =>
      rw [firstExtended_cons_pos hext] at hfirst
      cases hfirst
      exact hread
  | primary hext _ _ _ ih => exact ih hlba (firstExtended_cons_neg hext ▸ hfirst)
  | logic _ _ hroot => exact absurd hlba hroot
  | last _ _ hroot => exact absurd hlba hroot

/-- It takes a frame. -/
theorem Walks.first_frame (h : Walks disk frames lba es m m') (hlba : lba = 0)
    (hfirst : firstExtended es = some x) : 0 < frames := by
  induction h with
  | done => cases hfirst
  | skip htype _ ih => exact ih hlba (firstExtended_cons_neg (not_extended_of_empty htype) ▸ hfirst)
  | link => exact Nat.succ_pos _
  | primary hext _ _ _ ih => exact ih hlba (firstExtended_cons_neg hext ▸ hfirst)
  | logic _ _ hroot => exact absurd hlba hroot
  | last _ _ hroot => exact absurd hlba hroot

/-- A first link that leads back to the boot sector is followed for ever. -/
theorem Walks.first_ne_zero (h : Walks disk frames lba es m m') (hlba : lba = 0) (hbase : m.base = 0)
    (hfirst : firstExtended es = some x)
    (hloop : firstExtended (partitionTable disk 0) = some x) : x.startLba ≠ 0 := by
  induction h with
  | done => cases hfirst
  | skip htype _ ih =>
      exact ih hlba hbase (firstExtended_cons_neg (not_extended_of_empty htype) ▸ hfirst)
  | @link frames lba e es m m₁ m' hext hread hwalk _ ih₁ =>
      rw [firstExtended_cons_pos hext] at hfirst
      cases hfirst
      intro hzero
      have hnext : nextTable m.base x = 0 := by
        rw [nextTable, hbase, if_neg (by simp), hzero]
      have hkeep : nextBase m.base x = 0 := by
        rw [nextBase, hbase, if_neg (by simp), hzero]
      exact ih₁ hnext hkeep (by rw [hnext]; exact hloop) hzero
  | primary hext _ _ _ ih => exact ih hlba hbase (firstExtended_cons_neg hext ▸ hfirst)
  | logic _ _ hroot => exact absurd hlba hroot
  | last _ _ hroot => exact absurd hlba hroot

/-- The first link of the boot sector sets the base address. -/
theorem Walks.base_of_first (h : Walks disk frames lba es m m') (hlba : lba = 0) (hbase : m.base = 0)
    (hfirst : firstExtended es = some x) (hne : x.startLba ≠ 0) : m'.base = x.startLba := by
  induction h with
  | done => cases hfirst
  | skip htype _ ih =>
      exact ih hlba hbase (firstExtended_cons_neg (not_extended_of_empty htype) ▸ hfirst)
  | @link frames lba e es m m₁ m' hext hread hwalk hwalk' =>
      rw [firstExtended_cons_pos hext] at hfirst
      cases hfirst
      have hset : nextBase m.base x = x.startLba := by
        rw [nextBase, hbase, if_neg (by simp)]
      have hin := hwalk.base_of_ne_zero (by rw [hset]; exact hne)
      rw [hset] at hin
      rw [hwalk'.base_of_ne_zero (by rw [hin]; exact hne), hin]
  | primary hext _ _ _ ih => exact ih hlba hbase (firstExtended_cons_neg hext ▸ hfirst)
  | logic _ _ hroot => exact absurd hlba hroot
  | last _ _ hroot => exact absurd hlba hroot

/-- The extended partition of a disk that can be scanned. -/
theorem Walkable.first (h : Walkable disk frames 0)
    (hfirst : firstExtended (partitionTable disk 0) = some x) :
    x.startLba ≠ 0 ∧ x.startLba ≤ maxLba := by
  obtain ⟨_, m, -, hwalk, -⟩ := h
  have hle := hwalk.first_le rfl hfirst
  rw [nextTable, if_neg (by simp)] at hle
  exact ⟨hwalk.first_ne_zero rfl rfl hfirst hfirst, hle⟩

/-! ## Both disks -/

/-- With two channels, `sdb` is scanned and then `sdd`. -/
theorem inits_iff : Inits frames disks s' ↔ ∃ s₁ s₂,
    partitionScan (disks 1) 1 frames 0 scanInit = .ok s₁
      ∧ partitionScan (disks 3) 3 frames 0 s₁.reset = .ok s₂ ∧ s' = s₂.reset := by
  have hmaster : ∀ channelNo s, initDevice disks frames channelNo 0 s = .ok s.reset :=
    fun _ _ => rfl
  have hslave : ∀ channelNo s, initDevice disks frames channelNo 1 s
      = partitionScan (disks (channelNo * 2 + 1)) (channelNo * 2 + 1) frames 0 s
        >>= fun s => .ok s.reset := fun _ _ => rfl
  have hrun : ideInit disks frames 2 scanInit
      = partitionScan (disks 1) 1 frames 0 scanInit >>= fun s₁ =>
        partitionScan (disks 3) 3 frames 0 s₁.reset >>= fun s₂ => .ok s₂.reset := by
    rw [ideInit, initChannels, require_pos (by decide), hmaster]
    simp only [Outcome.ok_bind, hslave]
    change (partitionScan (disks 1) 1 frames 0 scanInit >>= _) >>= _ = _
    rw [bind_assoc]
    congr 1
    funext s₁
    rw [Outcome.ok_bind, initChannels, require_pos (by decide), hmaster]
    simp only [Outcome.ok_bind, hslave]
    change (partitionScan (disks 3) 3 frames 0 s₁.reset >>= _) >>= _ = _
    rw [bind_assoc]
    rfl
  rw [Inits, hrun]
  constructor
  · intro h
    obtain ⟨s₁, hfirst, h⟩ := Outcome.bind_eq_ok.1 h
    obtain ⟨s₂, hsecond, h⟩ := Outcome.bind_eq_ok.1 h
    exact ⟨s₁, s₂, hfirst, hsecond, (Except.ok.inj h).symm⟩
  · rintro ⟨s₁, s₂, hfirst, hsecond, rfl⟩
    rw [hfirst, Outcome.ok_bind, hsecond, Outcome.ok_bind]

/-- The scan of the first disk ends with the start of its extended partition as
    the base address. -/
theorem exists_firstScan (h : Walkable disk frames 0) :
    ∃ s₁, partitionScan disk 1 frames 0 scanInit = .ok s₁
      ∧ (¬ HasExtended disk → s₁.extLbaBase = 0)
      ∧ ∀ x, firstExtended (partitionTable disk 0) = some x → s₁.extLbaBase = x.startLba := by
  obtain ⟨inner, m, rfl, hwalk, hfits⟩ := id h
  obtain ⟨s₁, hrun, rfl⟩ := partitionScan_of_walks (s := scanInit) 1 hwalk hfits
  refine ⟨s₁, hrun, fun hnone => ?_, fun x hfirst => ?_⟩
  · exact hwalk.base_of_noExtended fun e he hext => hnone ⟨e, he, hext⟩
  · exact hwalk.base_of_first rfl rfl hfirst (h.first hfirst).1

theorem not_hasExtended_blank : ¬ HasExtended blank := by
  rintro ⟨e, he, hext⟩
  simp only [partitionTable, List.mem_cons, List.not_mem_nil, or_false] at he
  rcases he with rfl | rfl | rfl | rfl <;> exact absurd hext (by decide)

theorem walkable_blank (hframes : 0 < frames) : Walkable blank frames 0 := by
  refine ⟨frames - 1, ⟨0, 0, 0⟩, by omega, ?_, by decide, by decide⟩
  exact .skip rfl (.skip rfl (.skip rfl (.skip rfl .done)))

/-- The boot sector takes a frame. -/
theorem Walkable.pos {base : Nat} (h : Walkable disk frames base) : 0 < frames := by
  obtain ⟨inner, m, rfl, -⟩ := h
  exact Nat.succ_pos inner

/-- After the first disk the arrays of the second are as they were. -/
theorem alike_reset {disk' : Mem} (hs : partitionScan disk 1 frames 0 scanInit = .ok s)
    (ht : partitionScan disk' 1 frames 0 scanInit = .ok t) : Alike 3 s.reset t.reset := by
  obtain ⟨hprims, hlogics⟩ := partitionScan_others (by decide : 3 ≠ 1) hs
  obtain ⟨hprims', hlogics'⟩ := partitionScan_others (by decide : 3 ≠ 1) ht
  exact ⟨hprims'.trans hprims.symm, hlogics'.trans hlogics.symm, rfl, rfl⟩

/-- Two first disks that leave the second scan alike. -/
theorem Inits.alike {disks' : Nat → Mem} (h : Inits frames disks s) (hsecond : disks' 3 = disks 3)
    (h₁ : Walkable (disks 1) frames 0) (h₁' : Walkable (disks' 1) frames 0)
    (hnone : ¬ HasExtended (disks 3) ∨ ¬ HasExtended (disks 1) ∧ ¬ HasExtended (disks' 1)) :
    ∃ t, Inits frames disks' t ∧ Alike 3 s t := by
  obtain ⟨s₁, s₂, hrun₁, hrun₂, rfl⟩ := inits_iff.1 h
  obtain ⟨s₁', hrun₀, hbase, -⟩ := exists_firstScan h₁
  obtain rfl := Except.ok.inj (hrun₁.symm.trans hrun₀)
  obtain ⟨t₁, hrun₁', hbase', -⟩ := exists_firstScan h₁'
  have hlink : (∃ e ∈ partitionTable (disks 3) 0, e.Extended) →
      t₁.reset.extLbaBase = s₁.reset.extLbaBase := by
    intro hext
    rcases hnone with hnone | ⟨hnone, hnone'⟩
    · exact absurd hext hnone
    · exact (hbase' hnone').trans (hbase hnone).symm
  obtain ⟨t₂, hrun₂', halike, -⟩ := partitionScan_alike (alike_reset hrun₁ hrun₁') hlink hrun₂
  refine ⟨t₂.reset, inits_iff.2 ⟨t₁, t₂, hrun₁', ?_, rfl⟩, ?_⟩
  · rw [hsecond]
    exact hrun₂'
  · exact ⟨halike.prims, halike.logics, rfl, rfl⟩

/-- Where both disks have an extended partition, the first link of the second is
    followed from the extended partition of the first. -/
theorem Inits.link_le {x₁ x₃ : TableEntry} (h : Inits frames disks s)
    (h₁ : Walkable (disks 1) frames 0)
    (hfirst₁ : firstExtended (partitionTable (disks 1) 0) = some x₁)
    (hfirst₃ : firstExtended (partitionTable (disks 3) 0) = some x₃) :
    (x₃.startLba + x₁.startLba) % 2 ^ 32 ≤ maxLba := by
  obtain ⟨s₁, s₂, hrun₁, hrun₂, -⟩ := inits_iff.1 h
  obtain ⟨s₁', hrun₀, -, hbase⟩ := exists_firstScan h₁
  obtain rfl := Except.ok.inj (hrun₁.symm.trans hrun₀)
  have hfits : s₁.reset.met.Fits := ⟨Nat.zero_le _, Nat.zero_le _⟩
  obtain ⟨_, -, -, hwalk, -⟩ := walks_of_partitionScan hfits hrun₂
  have hle := hwalk.first_le rfl hfirst₃
  have hset : s₁.reset.met.base = x₁.startLba := hbase x₁ hfirst₁
  rw [nextTable, hset, if_pos (h₁.first hfirst₁).1] at hle
  exact hle

/-! ## The search for file systems -/

section Search

variable {examine : Nat → Part → (Nat → Mem) → Outcome (Nat → Mem)} {f f' : SearchState}
  {partition : PartNode}

theorem examinePart_seen {part : Part} (h : examinePart examine hd part f = .ok f') :
    f'.partitionIdx = f.partitionIdx ∧ ∀ p ∈ f'.seen, p ∈ f.seen ∨ p.1 = hd := by
  unfold examinePart at h
  split at h
  · obtain ⟨_, _, h⟩ := Outcome.bind_eq_ok.1 h
    obtain ⟨disks, _, h⟩ := Outcome.bind_eq_ok.1 h
    cases h
    refine ⟨rfl, fun p hp => ?_⟩
    rcases List.mem_append.1 hp with hp | hp
    · exact .inl hp
    · rw [List.mem_singleton.1 hp]
      exact .inr rfl
  · cases h
    exact ⟨rfl, fun p hp => .inl hp⟩

/-- The search of a disk ends behind the twelfth partition, and examines
    partitions of this disk only. -/
theorem searchParts_seen (h : searchParts examine s hd fuel partition f = .ok f') :
    12 ≤ f'.partitionIdx ∧ ∀ p ∈ f'.seen, p ∈ f.seen ∨ p.1 = hd := by
  induction fuel generalizing partition f with
  | zero => cases h
  | succ fuel ih =>
      rw [searchParts] at h
      split at h
      · obtain ⟨part, _, h⟩ := Outcome.bind_eq_ok.1 h
        obtain ⟨f₁, hexamine, h⟩ := Outcome.bind_eq_ok.1 h
        obtain ⟨-, hseen₁⟩ := examinePart_seen hexamine
        obtain ⟨hidx, hseen⟩ := ih h
        refine ⟨hidx, fun p hp => ?_⟩
        rcases hseen p hp with hp | hp
        · exact hseen₁ p hp
        · exact .inr hp
      · cases h
        exact ⟨by omega, fun p hp => .inl hp⟩

/-- A search that starts behind the twelfth partition examines nothing. -/
theorem searchParts_behind (hidx : 12 ≤ f.partitionIdx)
    (h : searchParts examine s hd fuel partition f = .ok f') : f' = f := by
  cases fuel with
  | zero => cases h
  | succ fuel =>
      rw [searchParts, if_neg (by omega)] at h
      exact (Except.ok.inj h).symm

/-- `partition_idx` is not reset, so that `filesys_init` examines no partition of
    the second disk, whatever is on the disks. -/
theorem filesysInit_seen {f : SearchState} (h : filesysInit examine s fuel 2 disks = .ok f) :
    (f.seen.filter fun p => p.1 = 3) = [] := by
  rw [filesysInit, searchChannels] at h
  obtain ⟨f₁, hfirst, h⟩ := Outcome.bind_eq_ok.1 h
  rw [searchChannels] at h
  obtain ⟨f₂, hsecond, h⟩ := Outcome.bind_eq_ok.1 h
  cases h
  obtain ⟨hidx, hseen⟩ := searchParts_seen hfirst
  rw [searchParts_behind hidx hsecond, List.filter_eq_nil_iff]
  intro p hp
  rcases hseen p hp with hnone | hdisk
  · cases hnone
  · rw [hdisk]
    decide

end Search

/-! ## The result -/

/-- A first disk that can be scanned, and one disk without an extended
    partition. -/
theorem scansApart_of_noExtended (h₁ : ScansRobustly (disks 1) 1 frames scanInit)
    (hnone : ¬ HasExtended (disks 1) ∨ ¬ HasExtended (disks 3)) : ScansApart frames disks := by
  have hwalk₁ : Walkable (disks 1) frames 0 := walkable_of_scansRobustly rfl rfl h₁
  have hfirst : Function.update disks 1 blank 1 = blank := Function.update_self ..
  have hsecond : Function.update disks 1 blank 3 = disks 3 :=
    Function.update_of_ne (by decide) _ _
  have hblank := not_hasExtended_blank
  have hwalk₀ : Walkable (Function.update disks 1 blank 1) frames 0 := by
    rw [hfirst]
    exact walkable_blank hwalk₁.pos
  refine ⟨fun s₀ h₀ => ?_, fun s s₀ h h₀ => ?_, fun s s₀ _ _ examine fuel fuel₀ f f₀ hf hf₀ => ?_⟩
  · obtain ⟨s, hrun, -⟩ := h₀.alike hsecond.symm hwalk₀ hwalk₁ (by
      rw [hfirst, hsecond]
      exact hnone.symm.imp_right fun hnone => ⟨hblank, hnone⟩)
    exact ⟨s, hrun⟩
  · obtain ⟨s₀', h₀', halike⟩ := h.alike hsecond hwalk₁ hwalk₀ (by
      rw [hfirst]
      exact hnone.symm.imp_right fun hnone => ⟨hnone, hblank⟩)
    obtain rfl := Except.ok.inj (h₀.symm.trans h₀')
    exact ⟨halike.prims.symm, halike.logics.symm⟩
  · rw [filesysInit_seen hf, filesysInit_seen hf₀]

/-- After a blank first disk, the second can be scanned as it can on its own. -/
theorem exists_inits_blank (frames : Nat) (disks : Nat → Mem) (hfirst : disks 1 = blank)
    (h₃ : Walkable (disks 3) frames 0) : ∃ s₀, Inits frames disks s₀ := by
  obtain ⟨s₁, hrun₁, hbase, -⟩ := exists_firstScan (walkable_blank h₃.pos)
  obtain ⟨inner, m, rfl, hwalk, hfits⟩ := h₃
  have hmet : s₁.reset.met = ⟨0, 0, 0⟩ := by
    rw [ScanState.met, ScanState.reset, hbase not_hasExtended_blank]
  rw [← hmet] at hwalk
  obtain ⟨s₂, hrun₂, -⟩ := partitionScan_of_walks 3 hwalk hfits
  rw [← hfirst] at hrun₁
  exact ⟨s₂.reset, inits_iff.2 ⟨s₁, s₂, hrun₁, hrun₂, rfl⟩⟩

/-- A first disk that cannot be scanned keeps the second from being scanned. -/
theorem scansRobustly_of_scansApart (h : ScansApart frames disks)
    (h₃ : ScansRobustly (disks 3) 3 frames scanInit) :
    ScansRobustly (disks 1) 1 frames scanInit := by
  obtain ⟨s₀, hblank⟩ := exists_inits_blank frames (Function.update disks 1 blank)
    (Function.update_self ..) (by
      rw [Function.update_of_ne (by decide)]
      exact walkable_of_scansRobustly rfl rfl h₃)
  obtain ⟨s, hrun⟩ := h.returns s₀ hblank
  obtain ⟨s₁, _, hrun₁, -⟩ := inits_iff.1 hrun
  exact ⟨s₁, hrun₁⟩

/-- Two extended partitions whose starts add up to a sector behind the last one
    that can be read. -/
theorem not_scansApart_of_extended (disks : Nat → Mem) (x₁ x₃ : TableEntry)
    (h₁ : Walkable (disks 1) frames 0) (h₃ : Walkable (disks 3) frames 0)
    (hfirst₁ : firstExtended (partitionTable (disks 1) 0) = some x₁)
    (hfirst₃ : firstExtended (partitionTable (disks 3) 0) = some x₃)
    (hfar : maxLba < x₃.startLba + x₁.startLba) : ¬ ScansApart frames disks := by
  intro hapart
  obtain ⟨s₀, hblank⟩ := exists_inits_blank frames (Function.update disks 1 blank)
    (Function.update_self ..) (by rwa [Function.update_of_ne (by decide)])
  obtain ⟨s, hrun⟩ := hapart.returns s₀ hblank
  have hle := hrun.link_le h₁ hfirst₁ hfirst₃
  have hle₁ := (h₁.first hfirst₁).2
  have hle₃ := (h₃.first hfirst₃).2
  rw [maxLba] at hfar hle hle₁ hle₃
  omega

/-- A disk with an empty extended partition in its last sector. -/
def lastDisk : Mem := diskOf [(0, [⟨0x5, maxLba, 1⟩])]

theorem firstExtended_lastDisk :
    firstExtended (partitionTable lastDisk 0) = some ⟨0x5, maxLba, 1⟩ := by decide +kernel

/-- Two frames are enough for it. -/
theorem scansRobustly_lastDisk (hd : Nat) (hframes : 2 ≤ frames) :
    ScansRobustly lastDisk hd frames scanInit := by
  have hboot : (partitionTable lastDisk 0).filter (fun e => e.fsType ≠ 0) = [⟨0x5, maxLba, 1⟩] := by
    decide +kernel
  have hlast : (partitionTable lastDisk maxLba).filter (fun e => e.fsType ≠ 0) = [] := by
    decide +kernel
  refine ⟨{ scanInit with extLbaBase := maxLba }, partitionScan_mono hframes ?_⟩
  rw [partitionScan, require_pos (Nat.zero_le _), scanEntries_used]
  simp only [hboot]
  rw [scanEntries, if_pos (by decide)]
  have hnext : nextTable scanInit.extLbaBase ⟨0x5, maxLba, 1⟩ = maxLba := rfl
  rw [hnext, partitionScan, require_pos (Nat.le_refl _), scanEntries_used]
  simp only [hlast]
  rfl

/-- A link takes a second frame. -/
theorem Walkable.two_le {base : Nat} (h : Walkable disk frames base) (hext : HasExtended disk) :
    2 ≤ frames := by
  obtain ⟨inner, m, rfl, hwalk, -⟩ := h
  obtain ⟨x, hfirst⟩ := firstExtended_of_hasExtended hext
  have hinner := hwalk.first_frame rfl hfirst
  omega

/-- Two disks that can be scanned on their own, both with an extended partition:
    one disturbs, and is disturbed by, some other disk. -/
theorem exists_not_scansApart (h₁ : ScansRobustly (disks 1) 1 frames scanInit)
    (hext : HasExtended (disks 1)) : ∃ disk, ScansRobustly disk 3 frames scanInit
      ∧ ¬ ScansApart frames (Function.update disks 3 disk) := by
  have hwalk : Walkable (disks 1) frames 0 := walkable_of_scansRobustly rfl rfl h₁
  have hlast := scansRobustly_lastDisk 3 (hwalk.two_le hext)
  obtain ⟨x, hfirst⟩ := firstExtended_of_hasExtended hext
  have hne := (hwalk.first hfirst).1
  refine ⟨lastDisk, hlast, not_scansApart_of_extended _ x ⟨0x5, maxLba, 1⟩ ?_ ?_ ?_ ?_
    (by dsimp only; omega)⟩
  · rwa [Function.update_of_ne (by decide)]
  · rw [Function.update_self]
    exact walkable_of_scansRobustly rfl rfl hlast
  · rwa [Function.update_of_ne (by decide)]
  · rw [Function.update_self]
    exact firstExtended_lastDisk

theorem exists_not_scansApart_first (h₃ : ScansRobustly (disks 3) 3 frames scanInit)
    (hext : HasExtended (disks 3)) : ∃ disk, ScansRobustly disk 1 frames scanInit
      ∧ ¬ ScansApart frames (Function.update disks 1 disk) := by
  have hwalk : Walkable (disks 3) frames 0 := walkable_of_scansRobustly rfl rfl h₃
  have hlast := scansRobustly_lastDisk 1 (hwalk.two_le hext)
  obtain ⟨x, hfirst⟩ := firstExtended_of_hasExtended hext
  have hne := (hwalk.first hfirst).1
  refine ⟨lastDisk, hlast, not_scansApart_of_extended _ ⟨0x5, maxLba, 1⟩ x ?_ ?_ ?_ ?_
    (by dsimp only; omega)⟩
  · rw [Function.update_self]
    exact walkable_of_scansRobustly rfl rfl hlast
  · rwa [Function.update_of_ne (by decide)]
  · rw [Function.update_self]
    exact firstExtended_lastDisk
  · rwa [Function.update_of_ne (by decide)]

/-- Two disks with an extended partition and one logical partition each. -/
def linkedDisks : Nat → Mem
  | 1 => diskOf [(0, [⟨0x5, 10, 50⟩]), (10, [⟨0x83, 1, 5⟩])]
  | 3 => diskOf [(0, [⟨0x5, 20, 50⟩]), (20, [⟨0x83, 1, 5⟩])]
  | _ => blank

/-- One primary partition, in the second entry of the table. -/
def oneDisk : Mem := diskOf [(0, [⟨0, 0, 0⟩, ⟨0x83, 63, 100⟩])]

end Device
end JackOS
