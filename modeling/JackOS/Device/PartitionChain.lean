/-
  JackOS.Device.PartitionChain

  What `partition_scan` records of a disk whose tables are as they should be:
  primary partitions and one extended partition in the boot sector, and a chain
  of boot records with one logical partition each.  `Records` says what a part
  of the scan adds to the arrays and to the list; it holds of one partition, and
  of one part of the scan after another.
-/

import JackOS.Device.Partition

namespace JackOS
namespace Device

open Base

/-! ## Well-formed disks -/

/-- The entries of the table at `lba` that are not empty. -/
def usedEntries (disk : Mem) (lba : Nat) : List TableEntry :=
  (partitionTable disk lba).filter fun e => e.fsType ≠ 0

/-- The chain of boot records from `lba` on, in an extended partition that
    starts at `base`: each record with its logical partition. -/
inductive Chain (disk : Mem) (base : Nat) : (lba : Nat) → List (Nat × TableEntry) → Prop where
  | last {lba e} : lba ≠ 0 → ¬ e.Extended → usedEntries disk lba = [e] →
      Chain disk base lba [(lba, e)]
  | link {lba e l records} : lba ≠ 0 → ¬ e.Extended → l.Extended → usedEntries disk lba = [e, l] →
      Chain disk base ((l.startLba + base) % 2 ^ 32) records →
      Chain disk base lba ((lba, e) :: records)

/-- The primary partitions of the boot sector. -/
def primaries (disk : Mem) : List TableEntry := (usedEntries disk 0).filter fun e => ¬ e.Extended

/-- At most three primary partitions and one extended one, which has the chain
    `records`. -/
structure WellFormed (disk : Mem) (records : List (Nat × TableEntry)) : Prop where
  prims : (primaries disk).length ≤ 3
  one : ((usedEntries disk 0).filter fun e => e.Extended).length ≤ 1
  chain : ∀ x ∈ usedEntries disk 0, x.Extended →
    x.startLba ≠ 0 ∧ Chain disk x.startLba x.startLba records
  none : (∀ x ∈ usedEntries disk 0, ¬ x.Extended) → records = []
  few : records.length ≤ 8

/-! ## What is recorded -/

variable {disk : Mem} {hd extLba : Nat} {s s' s₁ : ScanState} {e : TableEntry}

/-- From `s` to `s'` the primary partitions `ps` and the logical ones `ls` (start
    and size) were recorded, and `nodes` went into the list. -/
structure Records (hd : Nat) (s s' : ScanState) (ps ls : List (Nat × Nat)) (nodes : List PartNode) :
    Prop where
  pNo : s'.pNo = s.pNo + ps.length
  lNo : s'.lNo = s.lNo + ls.length
  prims : ∀ i start size, ps[i]? = some (start, size) →
    s'.primParts hd (s.pNo + i) = ⟨start, size, s.pNo + i + 1⟩
  logics : ∀ j start size, ls[j]? = some (start, size) →
    s'.logicParts hd (s.lNo + j) = ⟨start, size, s.lNo + j + 5⟩
  keepPrims : ∀ i, i < s.pNo ∨ s'.pNo ≤ i → s'.primParts hd i = s.primParts hd i
  keepLogics : ∀ j, j < s.lNo ∨ s'.lNo ≤ j → s'.logicParts hd j = s.logicParts hd j
  others : ∀ hd', hd' ≠ hd →
    s'.primParts hd' = s.primParts hd' ∧ s'.logicParts hd' = s.logicParts hd'
  new : ∀ node ∈ nodes, (∃ i, s.pNo ≤ i ∧ i < s'.pNo ∧ node = .prim hd i)
    ∨ ∃ j, s.lNo ≤ j ∧ j < s'.lNo ∧ node = .logic hd j
  list : ∀ xs, partLinks.Holds s.links partitionList xs →
    (∀ i, s.pNo ≤ i → .prim hd i ∉ xs) → (∀ j, s.lNo ≤ j → .logic hd j ∉ xs) →
    partLinks.Holds s'.links partitionList (xs ++ nodes)

theorem Records.refl (hd : Nat) (s : ScanState) : Records hd s s [] [] [] where
  pNo := rfl
  lNo := rfl
  prims _ _ _ h := by cases h
  logics _ _ _ h := by cases h
  keepPrims _ _ := rfl
  keepLogics _ _ := rfl
  others _ _ := ⟨rfl, rfl⟩
  new _ h := by cases h
  list xs h _ _ := by rwa [List.append_nil]

/-- One part of the scan after another. -/
theorem Records.trans {ps ls ps' ls' : List (Nat × Nat)} {nodes nodes' : List PartNode}
    (h : Records hd s s₁ ps ls nodes) (h' : Records hd s₁ s' ps' ls' nodes') :
    Records hd s s' (ps ++ ps') (ls ++ ls') (nodes ++ nodes') := by
  have hp := h.pNo
  have hl := h.lNo
  have hp' := h'.pNo
  have hl' := h'.lNo
  refine ⟨?_, ?_, fun i start size hi => ?_, fun j start size hj => ?_, fun i hi => ?_,
    fun j hj => ?_, fun hd' hne => ?_, fun node hnode => ?_, fun xs hxs hprim hlogic => ?_⟩
  · rw [List.length_append]
    omega
  · rw [List.length_append]
    omega
  · -- an index of the first part, whose entry the second keeps, or of the second
    by_cases hlt : i < ps.length
    · rw [List.getElem?_append_left hlt] at hi
      rw [h'.keepPrims _ (.inl (by omega)), h.prims i start size hi]
    · rw [List.getElem?_append_right (by omega)] at hi
      have hnext := h'.prims _ start size hi
      have hidx : s₁.pNo + (i - ps.length) = s.pNo + i := by omega
      rw [hidx] at hnext
      exact hnext
  · by_cases hlt : j < ls.length
    · rw [List.getElem?_append_left hlt] at hj
      rw [h'.keepLogics _ (.inl (by omega)), h.logics j start size hj]
    · rw [List.getElem?_append_right (by omega)] at hj
      have hnext := h'.logics _ start size hj
      have hidx : s₁.lNo + (j - ls.length) = s.lNo + j := by omega
      rw [hidx] at hnext
      exact hnext
  · rw [h'.keepPrims i (by omega), h.keepPrims i (by omega)]
  · rw [h'.keepLogics j (by omega), h.keepLogics j (by omega)]
  · rw [(h'.others hd' hne).1, (h'.others hd' hne).2]
    exact h.others hd' hne
  · rcases List.mem_append.1 hnode with hnode | hnode
    · rcases h.new node hnode with ⟨i, hlo, hhi, rfl⟩ | ⟨j, hlo, hhi, rfl⟩
      · exact .inl ⟨i, hlo, by omega, rfl⟩
      · exact .inr ⟨j, hlo, by omega, rfl⟩
    · rcases h'.new node hnode with ⟨i, hlo, hhi, rfl⟩ | ⟨j, hlo, hhi, rfl⟩
      · exact .inl ⟨i, by omega, hhi, rfl⟩
      · exact .inr ⟨j, by omega, hhi, rfl⟩
  · -- the nodes that are in the list by now have lower numbers
    rw [← List.append_assoc]
    refine h'.list _ (h.list xs hxs hprim hlogic) (fun i hi hmem => ?_) fun j hj hmem => ?_
    · rcases List.mem_append.1 hmem with hmem | hmem
      · exact hprim i (by omega) hmem
      · rcases h.new _ hmem with ⟨i', _, hhi, heq⟩ | ⟨j', _, _, heq⟩
        · cases heq
          omega
        · cases heq
    · rcases List.mem_append.1 hmem with hmem | hmem
      · exact hlogic j (by omega) hmem
      · rcases h.new _ hmem with ⟨i', _, _, heq⟩ | ⟨j', _, hhi, heq⟩
        · cases heq
        · cases heq
          omega

/-! ## One partition -/

/-- A node goes to the end of the list. -/
theorem holds_appendPart {links : Links PartNode} {xs : List PartNode} {node : PartNode}
    (h : partLinks.Holds links partitionList xs) (hxs : node ∉ xs)
    (hnode : node ≠ .null ∧ node ≠ .head ∧ node ≠ .tail) :
    partLinks.Holds (Lib.listAppend partLinks links partitionList node) partitionList
      (xs ++ [node]) := by
  refine (Lib.listAppend_spec h ⟨trivial, hnode.1, fun z hz => ?_⟩).1
  rintro rfl
  rcases Anchor.mem_nodes.1 hz with heq | hmem | heq
  · exact hnode.2.1 heq
  · exact hxs hmem
  · exact hnode.2.2 heq

theorem addPrimary_records (hd : Nat) (hroom : s.pNo + 1 ≤ 3) (hstart : e.startLba < 2 ^ 32) :
    ∃ s', addPrimary hd 0 e s = .ok s'
      ∧ Records hd s s' [(e.startLba, e.secCnt)] [] [.prim hd s.pNo]
      ∧ s'.extLbaBase = s.extLbaBase := by
  have hlba : (0 + e.startLba) % 2 ^ 32 = e.startLba := by
    rw [Nat.zero_add, Nat.mod_eq_of_lt hstart]
  refine ⟨s.withPrimary hd e.startLba e.secCnt, ?_, ?_, rfl⟩
  · rw [addPrimary_eq_ok, hlba]
    exact ⟨hroom, rfl⟩
  · refine ⟨rfl, rfl, fun i start size hi => ?_, fun _ _ _ hj => (by cases hj), fun i hi => ?_,
      fun _ _ => rfl, fun hd' hne => ⟨Function.update_of_ne hne _ _, rfl⟩, fun node hnode => ?_,
      fun xs hxs hprim _ => holds_appendPart hxs (hprim s.pNo (Nat.le_refl _)) (by simp)⟩
    · cases i with
      | zero =>
          cases hi
          simp only [ScanState.withPrimary, Nat.add_zero, Function.update_self]
      | succ i => cases hi
    · have hne : i ≠ s.pNo := by
        dsimp only [ScanState.withPrimary] at hi
        omega
      dsimp only [ScanState.withPrimary]
      rw [Function.update_self, Function.update_of_ne hne]
    · rw [List.mem_singleton.1 hnode]
      exact .inl ⟨s.pNo, Nat.le_refl _, Nat.lt_succ_self _, rfl⟩

theorem addLogic_records (hd lba : Nat) (e : TableEntry) (hroom : s.lNo + 1 ≤ 8) :
    ∃ s', addLogic hd lba e s = .ok s'
      ∧ Records hd s s' [] [((lba + e.startLba) % 2 ^ 32, e.secCnt)] [.logic hd s.lNo]
      ∧ s'.extLbaBase = s.extLbaBase := by
  refine ⟨s.withLogic hd ((lba + e.startLba) % 2 ^ 32) e.secCnt, addLogic_eq_ok.2 ⟨hroom, rfl⟩,
    ?_, rfl⟩
  refine ⟨rfl, rfl, fun _ _ _ hi => (by cases hi), fun j start size hj => ?_, fun _ _ => rfl,
    fun j hj => ?_, fun hd' hne => ⟨rfl, Function.update_of_ne hne _ _⟩, fun node hnode => ?_,
    fun xs hxs _ hlogic => holds_appendPart hxs (hlogic s.lNo (Nat.le_refl _)) (by simp)⟩
  · cases j with
    | zero =>
        cases hj
        simp only [ScanState.withLogic, Nat.add_zero, Function.update_self]
    | succ j => cases hj
  · have hne : j ≠ s.lNo := by
      dsimp only [ScanState.withLogic] at hj
      omega
    dsimp only [ScanState.withLogic]
    rw [Function.update_self, Function.update_of_ne hne]
  · rw [List.mem_singleton.1 hnode]
    exact .inr ⟨s.lNo, Nat.le_refl _, Nat.lt_succ_self _, rfl⟩

/-! ## The chain -/

/-- What is recorded of a logical partition. -/
def logicOf (r : Nat × TableEntry) : Nat × Nat := ((r.1 + r.2.startLba) % 2 ^ 32, r.2.secCnt)

theorem Chain.length_pos {base lba : Nat} {records : List (Nat × TableEntry)}
    (h : Chain disk base lba records) : 0 < records.length := by
  cases h <;> exact Nat.succ_pos _

/-- Scanning the chain records its logical partitions in order. -/
theorem partitionScan_chain (hd : Nat) {base lba : Nat} {records : List (Nat × TableEntry)}
    (h : Chain disk base lba records) (hbase : base ≠ 0) (hlba : ∀ r ∈ records, r.1 ≤ maxLba)
    (hext : s.extLbaBase = base) (hroom : s.lNo + records.length ≤ 8) {frames : Nat}
    (hframes : records.length ≤ frames) :
    ∃ s', partitionScan disk hd frames lba s = .ok s'
      ∧ Records hd s s' [] (records.map logicOf)
        ((List.range records.length).map fun j => .logic hd (s.lNo + j))
      ∧ s'.extLbaBase = base := by
  induction h generalizing s frames with
  | @last lba e hne hplain hused =>
      obtain ⟨frames, rfl⟩ : ∃ k, frames = k + 1 := ⟨frames - 1, by simp at hframes; omega⟩
      -- the record without a link: its partition is added and the scan returns
      obtain ⟨s', hadd, hrec, hext'⟩ := addLogic_records hd lba e
        (by simpa using hroom : s.lNo + 1 ≤ 8)
      have htype : e.fsType ≠ 0 := by
        have hmem : e ∈ usedEntries disk lba := by
          rw [hused]
          exact List.mem_singleton_self e
        simpa using (List.mem_filter.1 hmem).2
      refine ⟨s', ?_, hrec, hext'.trans hext⟩
      rw [partitionScan, require_pos (hlba _ (List.mem_singleton_self _)), scanEntries_used]
      change scanEntries _ hd lba (usedEntries disk lba) s = _
      rw [hused, scanEntries, if_neg hplain, if_pos htype, if_neg hne, hadd]
      simp only [Outcome.ok_bind, scanEntries, ite_self]
  | @link lba e l records hne hplain hlink hused hchain ih =>
      obtain ⟨frames, rfl⟩ : ∃ k, frames = k + 1 := ⟨frames - 1, by simp at hframes; omega⟩
      rw [List.length_cons] at hroom hframes
      have hpos := hchain.length_pos
      -- the partition is added, then the frame of the next record starts
      obtain ⟨s₁, hadd, hrec, hext₁⟩ := addLogic_records (s := s) hd lba e (by omega)
      have htype : e.fsType ≠ 0 := by
        have hmem : e ∈ usedEntries disk lba := by
          rw [hused]
          exact List.mem_cons_self
        simpa using (List.mem_filter.1 hmem).2
      have hno : s₁.lNo = s.lNo + 1 := hrec.lNo
      have hsame : { s₁ with extLbaBase := nextBase s₁.extLbaBase l } = s₁ := by
        rw [hext₁, hext, nextBase, if_pos hbase, ← hext, ← hext₁]
      obtain ⟨s', hrun, hrec', hext'⟩ := ih (fun r hr => hlba r (List.mem_cons_of_mem _ hr))
        (hext₁.trans hext) (by omega) (by omega : records.length ≤ frames)
      refine ⟨s', ?_, ?_, hext'⟩
      · rw [partitionScan, require_pos (hlba _ List.mem_cons_self), scanEntries_used]
        change scanEntries _ hd lba (usedEntries disk lba) s = _
        rw [hused, scanEntries, if_neg hplain, if_pos htype, if_neg hne, hadd]
        simp only [Outcome.ok_bind]
        rw [if_neg (by omega), scanEntries, if_pos hlink, hsame, nextTable, hext₁, hext,
          if_pos hbase, hrun]
        rfl
      · have hall := hrec.trans hrec'
        -- this node first, then those of the rest of the chain
        have hrange : (List.range (records.length + 1)).map (fun j => PartNode.logic hd (s.lNo + j))
            = [.logic hd s.lNo]
              ++ (List.range records.length).map fun j => .logic hd (s₁.lNo + j) := by
          rw [List.range_succ_eq_map, List.map_cons, List.map_map, hno]
          refine congrArg (PartNode.logic hd s.lNo :: ·) (List.map_congr_left fun j _ => ?_)
          change PartNode.logic hd (s.lNo + (j + 1)) = .logic hd (s.lNo + 1 + j)
          congr 1
          omega
        rw [List.length_cons, hrange, List.map_cons]
        exact hall

/-! ## The boot sector -/

/-- The nodes of the partitions, in the order in which the tables are walked:
    `i` primary partitions came before, and the extended one has `n` logical
    partitions. -/
def walkNodes (hd n : Nat) : (i : Nat) → List TableEntry → List PartNode
  | _, [] => []
  | i, e :: es =>
      if e.Extended then (List.range n).map (.logic hd) ++ walkNodes hd n i es
      else .prim hd i :: walkNodes hd n (i + 1) es

theorem tableEntry_startLba_lt (disk : Mem) (lba i : Nat) :
    (tableEntry disk lba i).startLba < 2 ^ 32 := Mem.le32_lt _ _

/-- Scanning the entries of the boot sector, of which at most one is extended. -/
theorem scanEntries_boot (hd : Nat) {records : List (Nat × TableEntry)} (frames : Nat)
    {es : List TableEntry} (hroom : s.pNo + (es.filter fun e => ¬ e.Extended).length ≤ 3)
    (hone : (es.filter fun e => e.Extended).length ≤ 1)
    (hchain : ∀ x ∈ es, x.Extended → s.extLbaBase = 0 ∧ s.lNo = 0 ∧ x.startLba ≠ 0
      ∧ Chain disk x.startLba x.startLba records)
    (hes : ∀ e ∈ es, e.fsType ≠ 0 ∧ e.startLba < 2 ^ 32)
    (hlba : ∀ r ∈ records, r.1 ≤ maxLba) (hfew : records.length ≤ 8)
    (hframes : records.length ≤ frames) :
    ∃ s', scanEntries (partitionScan disk hd frames) hd 0 es s = .ok s'
      ∧ Records hd s s' ((es.filter fun e => ¬ e.Extended).map fun e => (e.startLba, e.secCnt))
        ((es.filter fun e => e.Extended).flatMap fun _ => records.map logicOf)
        (walkNodes hd records.length s.pNo es) := by
  induction es generalizing s with
  | nil => exact ⟨s, rfl, .refl hd s⟩
  | cons e es ih =>
      obtain ⟨htype, hstart⟩ := hes e List.mem_cons_self
      have hes' := fun x hx => hes x (List.mem_cons_of_mem e hx)
      by_cases hext : e.Extended
      · -- the extended entry: the chain is scanned before the entries that follow
        obtain ⟨hbase, hno, hne, hch⟩ := hchain e List.mem_cons_self hext
        rw [List.filter_cons_of_neg (by simpa using hext)] at hroom ⊢
        rw [List.filter_cons_of_pos (by simpa using hext)] at hone ⊢
        have hnone : es.filter (fun e => e.Extended) = [] := by
          rw [List.length_cons] at hone
          exact List.length_eq_zero_iff.1 (by omega)
        have hplain : ∀ x ∈ es, ¬ x.Extended := by
          simpa using List.filter_eq_nil_iff.1 hnone
        obtain ⟨s₁, hrun, hrec, -⟩ := partitionScan_chain
          (s := { s with extLbaBase := e.startLba }) hd hch hne hlba rfl
          (by simpa [hno] using hfew) hframes
        have hp : s₁.pNo = s.pNo := hrec.pNo
        obtain ⟨s', hrest, hrec'⟩ := ih (s := s₁) (by rw [hp]; exact hroom)
          (by rw [hnone]; exact Nat.zero_le _) (fun x hx h => absurd h (hplain x hx)) hes'
        refine ⟨s', ?_, ?_⟩
        · rw [scanEntries, if_pos hext, nextTable, nextBase, hbase, if_neg (by simp),
            if_neg (by simp), hrun]
          exact hrest
        · have hrec : Records hd s s₁ [] (records.map logicOf)
              ((List.range records.length).map (.logic hd)) := by
            have hnodes : (List.range records.length).map (PartNode.logic hd)
                = (List.range records.length).map fun j => .logic hd (s.lNo + j) := by
              refine List.map_congr_left fun j _ => ?_
              rw [hno, Nat.zero_add]
            rw [hnodes]
            exact ⟨hrec.pNo, hrec.lNo, hrec.prims, hrec.logics, hrec.keepPrims, hrec.keepLogics,
              hrec.others, hrec.new, hrec.list⟩
          have hall := hrec.trans hrec'
          rw [hnone, List.flatMap_nil, hp, List.append_nil] at hall
          rw [hnone, walkNodes, if_pos hext]
          simpa using hall
      · -- a primary partition: the base is still 0 for the extended one to come
        rw [List.filter_cons_of_pos (by simpa using hext), List.length_cons] at hroom
        rw [List.filter_cons_of_neg (by simpa using hext)] at hone
        obtain ⟨s₁, hadd, hrec, hbase⟩ := addPrimary_records (s := s) hd (by omega) hstart
        have hp : s₁.pNo = s.pNo + 1 := hrec.pNo
        have hl : s₁.lNo = s.lNo := hrec.lNo
        obtain ⟨s', hrest, hrec'⟩ := ih (s := s₁) (by omega) hone
          (fun x hx h => by
            rw [hbase, hl]
            exact hchain x (List.mem_cons_of_mem e hx) h)
          hes'
        refine ⟨s', ?_, ?_⟩
        · rw [scanEntries, if_neg hext, if_pos htype, if_pos rfl, hadd]
          exact hrest
        · have hall := hrec.trans hrec'
          rw [List.filter_cons_of_pos (by simpa using hext),
            List.filter_cons_of_neg (by simpa using hext), walkNodes, if_neg hext]
          rw [hp] at hall
          exact hall

/-! ## The result -/

/-- The scan recorded the partitions of the tables and no others, and appended
    them to the list, where it was one before. -/
structure Decodes (disk : Mem) (hd : Nat) (records : List (Nat × TableEntry)) (s s' : ScanState) :
    Prop where
  primCount : s'.pNo = (primaries disk).length
  logicCount : s'.lNo = records.length
  prims : ∀ i e, (primaries disk)[i]? = some e →
    s'.primParts hd i = ⟨e.startLba, e.secCnt, i + 1⟩
  logics : ∀ j r, records[j]? = some r →
    s'.logicParts hd j = ⟨(r.1 + r.2.startLba) % 2 ^ 32, r.2.secCnt, j + 5⟩
  otherPrims : ∀ i, (primaries disk).length ≤ i → s'.primParts hd i = s.primParts hd i
  otherLogics : ∀ j, records.length ≤ j → s'.logicParts hd j = s.logicParts hd j
  list : ∀ xs, partLinks.Holds s.links partitionList xs → (∀ i, .prim hd i ∉ xs) →
    (∀ j, .logic hd j ∉ xs) → partLinks.Holds s'.links partitionList
      (xs ++ walkNodes hd records.length 0 (usedEntries disk 0))

/-- Chains are decoded correctly, where their records can be read: in a frame for
    the boot sector and one for each record, and in any number from there on. -/
theorem partitionScan_decodes {records : List (Nat × TableEntry)} (hd : Nat)
    (hdisk : WellFormed disk records) (hlba : ∀ r ∈ records, r.1 ≤ maxLba)
    (hbase : s.extLbaBase = 0) (hprim : s.pNo = 0) (hlogic : s.lNo = 0) :
    ∃ s', (∀ frames, records.length + 1 ≤ frames → partitionScan disk hd frames 0 s = .ok s')
      ∧ Decodes disk hd records s s' := by
  have hes : ∀ e ∈ usedEntries disk 0, e.fsType ≠ 0 ∧ e.startLba < 2 ^ 32 := by
    intro e he
    obtain ⟨hmem, htype⟩ := List.mem_filter.1 he
    refine ⟨by simpa using htype, ?_⟩
    simp only [partitionTable, List.mem_cons, List.not_mem_nil, or_false] at hmem
    rcases hmem with rfl | rfl | rfl | rfl <;> exact tableEntry_startLba_lt ..
  obtain ⟨s', hrun, hrec⟩ := scanEntries_boot (s := s) hd records.length
    (by rw [hprim, Nat.zero_add]; exact hdisk.prims) hdisk.one
    (fun x hx hext => ⟨hbase, hlogic, hdisk.chain x hx hext⟩) hes hlba hdisk.few (Nat.le_refl _)
  have hlogics : ((usedEntries disk 0).filter fun e => e.Extended).flatMap
      (fun _ => records.map logicOf) = records.map logicOf := by
    have hone := hdisk.one
    cases hfilter : (usedEntries disk 0).filter fun e => e.Extended with
    | nil =>
        have hrecords := hdisk.none (by simpa using List.filter_eq_nil_iff.1 hfilter)
        rw [hrecords]
        rfl
    | cons x rest =>
        rw [hfilter, List.length_cons] at hone
        have hrest := List.length_eq_zero_iff.1 (by omega : rest.length = 0)
        rw [hrest, List.flatMap_cons, List.flatMap_nil, List.append_nil]
  rw [hlogics] at hrec
  refine ⟨s', fun frames hframes => partitionScan_mono hframes ?_, ?_⟩
  · rw [partitionScan, require_pos (Nat.zero_le _), scanEntries_used]
    exact hrun
  · have hp : s'.pNo = (primaries disk).length := by
      rw [hrec.pNo, hprim, Nat.zero_add, List.length_map]
      rfl
    have hl : s'.lNo = records.length := by
      rw [hrec.lNo, hlogic, Nat.zero_add, List.length_map]
    refine ⟨hp, hl, fun i e hi => ?_, fun j r hj => ?_, fun i hi => ?_, fun j hj => ?_,
      fun xs hlist hnoPrim hnoLogic => ?_⟩
    · have hrecorded := hrec.prims i e.startLba e.secCnt (by
        rw [List.getElem?_map]
        exact congrArg (Option.map _) hi)
      rwa [hprim, Nat.zero_add] at hrecorded
    · have hrecorded := hrec.logics j _ r.2.secCnt (by
        rw [List.getElem?_map, hj]
        rfl)
      rwa [hlogic, Nat.zero_add] at hrecorded
    · exact hrec.keepPrims i (.inr (by omega))
    · exact hrec.keepLogics j (.inr (by omega))
    · have hheld := hrec.list xs hlist (fun i _ => hnoPrim i) (fun j _ => hnoLogic j)
      rwa [hprim] at hheld

/-- A primary partition, and an extended one with two boot records. -/
def chainDisk : Mem :=
  diskOf [(0, [⟨0x83, 10, 20⟩, ⟨0x5, 100, 1000⟩]), (100, [⟨0x83, 1, 40⟩, ⟨0x5, 50, 100⟩]),
    (150, [⟨0x83, 2, 30⟩])]

theorem chainDisk_boot : usedEntries chainDisk 0 = [⟨0x83, 10, 20⟩, ⟨0x5, 100, 1000⟩] := by
  decide +kernel

theorem chainDisk_wellFormed :
    WellFormed chainDisk [(100, ⟨0x83, 1, 40⟩), (150, ⟨0x83, 2, 30⟩)] := by
  have hfirst : usedEntries chainDisk 100 = [⟨0x83, 1, 40⟩, ⟨0x5, 50, 100⟩] := by decide +kernel
  have hsecond : usedEntries chainDisk 150 = [⟨0x83, 2, 30⟩] := by decide +kernel
  refine ⟨?_, ?_, fun x hx hext => ?_, fun hnone => ?_, by decide⟩
  · rw [primaries, chainDisk_boot]
    decide
  · rw [chainDisk_boot]
    decide
  · rw [chainDisk_boot] at hx
    have hx : x = ⟨0x5, 100, 1000⟩ := by
      rcases List.mem_cons.1 hx with rfl | hx
      · exact absurd hext (by decide)
      · exact List.mem_singleton.1 hx
    subst hx
    exact ⟨by decide, .link (by decide) (by decide) (by decide) hfirst
      (.last (by decide) (by decide) hsecond)⟩
  · exact absurd rfl (hnone ⟨0x5, 100, 1000⟩ (by rw [chainDisk_boot]; decide))

/-- The same with `partition_list` made a list, which nothing in the source does. -/
def listedInit : ScanState :=
  { scanInit with links := Lib.listInit partLinks scanInit.links partitionList }

theorem listedInit_holds : partLinks.Holds listedInit.links partitionList [] := by
  have hap : PartNode.head ≠ .tail := by decide
  have hhead : PartNode.head ≠ .null := by decide
  have htail : PartNode.tail ≠ .null := by decide
  have hspec := Lib.listInit_spec (S := partLinks) (l := partitionList) (s := scanInit.links) hap
    ⟨trivial, hhead⟩ ⟨trivial, htail⟩
  exact hspec.1

theorem partitionScan_decodes_chain :
    ∃ s', (∀ frames, 3 ≤ frames → partitionScan chainDisk 1 frames 0 listedInit = .ok s')
      ∧ Decodes chainDisk 1 [(100, ⟨0x83, 1, 40⟩), (150, ⟨0x83, 2, 30⟩)] listedInit s'
      ∧ partLinks.Holds s'.links partitionList [.prim 1 0, .logic 1 0, .logic 1 1] := by
  obtain ⟨s', hrun, hdecodes⟩ :=
    partitionScan_decodes (s := listedInit) 1 chainDisk_wellFormed (by decide) rfl rfl rfl
  have hlist := hdecodes.list [] listedInit_holds (fun _ => List.not_mem_nil)
    (fun _ => List.not_mem_nil)
  rw [chainDisk_boot] at hlist
  exact ⟨s', hrun, hdecodes, hlist⟩

/-- A walk does not follow a link behind the sectors that can be read. -/
theorem not_walks_far {frames lba : Nat} {es : List TableEntry} {m m' : Met} (hext : e.Extended)
    (hfar : ¬ nextTable m.base e ≤ maxLba) : ¬ Walks disk frames lba (e :: es) m m' := by
  intro hwalk
  cases hwalk with
  | skip htype =>
      rw [TableEntry.Extended, htype] at hext
      exact absurd hext (by decide)
  | link _ hread => exact hfar hread
  | primary hplain => exact hplain hext
  | logic hplain => exact hplain hext
  | last hplain => exact hplain hext

/-- An extended partition that starts behind the sectors that can be read. -/
def farDisk : Mem := diskOf [(0, [⟨0x5, 163840, 1000⟩]), (163840, [⟨0x83, 1, 10⟩])]

theorem farDisk_wellFormed : WellFormed farDisk [(163840, ⟨0x83, 1, 10⟩)] := by
  have hboot : usedEntries farDisk 0 = [⟨0x5, 163840, 1000⟩] := by decide +kernel
  have hfirst : usedEntries farDisk 163840 = [⟨0x83, 1, 10⟩] := by decide +kernel
  refine ⟨?_, ?_, fun x hx _ => ?_, fun hnone => ?_, by decide⟩
  · rw [primaries, hboot]
    decide
  · rw [hboot]
    decide
  · rw [hboot] at hx
    rw [List.mem_singleton.1 hx]
    exact ⟨by decide, .last (by decide) (by decide) hfirst⟩
  · exact absurd rfl (hnone ⟨0x5, 163840, 1000⟩ (by rw [hboot]; decide))

theorem not_scansRobustly_far (frames : Nat) : ¬ ScansRobustly farDisk 1 frames scanInit := by
  rintro ⟨s', hrun⟩
  obtain ⟨inner, -, -, hwalk, -⟩ := walks_of_partitionScan ⟨by decide, by decide⟩ hrun
  have htable : partitionTable farDisk 0
      = [⟨0x5, 163840, 1000⟩, ⟨0, 0, 0⟩, ⟨0, 0, 0⟩, ⟨0, 0, 0⟩] := by decide +kernel
  rw [htable] at hwalk
  exact not_walks_far (by decide) (by decide) hwalk

/-- The scan of `farDisk` stops the kernel.  That of `chainDisk` returns, but from
    the link fields as they are at boot no list comes about: the head still points
    to nothing. -/
theorem far_chain_stops :
    (WellFormed farDisk [(163840, ⟨0x83, 1, 10⟩)]
        ∧ ¬ ∃ frames, ScansRobustly farDisk 1 frames scanInit)
      ∧ WellFormed chainDisk [(100, ⟨0x83, 1, 40⟩), (150, ⟨0x83, 2, 30⟩)]
      ∧ ∃ s', partitionScan chainDisk 1 3 0 scanInit = .ok s'
        ∧ ¬ partLinks.Holds s'.links partitionList (walkNodes 1 2 0 (usedEntries chainDisk 0)) := by
  refine ⟨⟨farDisk_wellFormed, fun ⟨frames, hscan⟩ => not_scansRobustly_far frames hscan⟩,
    chainDisk_wellFormed, ?_⟩
  obtain ⟨s', hrun, hhead⟩ := Outcome.returns_iff.1
    (by decide +kernel : (partitionScan chainDisk 1 3 0 scanInit).returns
      (fun s => s.links.next .head = .null) = true)
  refine ⟨s', hrun, fun hheld => ?_⟩
  have hhead : s'.links.next .head = .null := by simpa using hhead
  rw [chainDisk_boot] at hheld
  have hnext : s'.links.next .head = .prim 1 0 := hheld.next_head
  rw [hhead] at hnext
  cases hnext

end Device
end JackOS
