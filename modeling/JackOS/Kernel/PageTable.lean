/-
  JackOS.Kernel.PageTable

  The two levels of a process's page tables: `userFrame` walks from the page
  directory to the frame of a page.  `page_table_add` maps the page that it is
  given and leaves every other page as it was (`addUserPage_spec`), whether it
  takes a new page table or not.
-/

import JackOS.Kernel.KernelPages

namespace JackOS
namespace Kernel

open Base Base.Mem

/-! ## The walk -/

namespace Machine

/-- The frame of the page table that entry `d` of the page directory names. -/
def tableFrame (m : Machine) (dir d : Nat) : Option Nat :=
  if present (m.word dir d) then some (frameOf (m.word dir d)) else none

/-- The frame that entry `i` of a page table names. -/
def entryFrame (m : Machine) (t i : Nat) : Option Nat :=
  if present (m.word t i) then some (frameOf (m.word t i)) else none

/-- The frame of page `v` in the address space of the page directory `dir`. -/
def userFrame (m : Machine) (dir v : Nat) : Option Nat :=
  (m.tableFrame dir (v / 1024)).bind fun t => m.entryFrame t (v % 1024)

end Machine

variable {L : Layout} {m₁ m m' : Machine} {dir v f : Nat}

/-- Pages of user space lie below the kernel. -/
def userPages : Nat := 0xC0000

theorem tableFrame_congr (h : m'.phys dir = m.phys dir) (d : Nat) :
    m'.tableFrame dir d = m.tableFrame dir d := by
  rw [Machine.tableFrame, Machine.tableFrame, Machine.word, Machine.word, h]

theorem entryFrame_congr {t : Nat} (h : m'.phys t = m.phys t) (i : Nat) :
    m'.entryFrame t i = m.entryFrame t i := by
  rw [Machine.entryFrame, Machine.entryFrame, Machine.word, Machine.word, h]

/-- The walk reads the page directory and its page tables only. -/
theorem userFrame_congr (hdir : m'.phys dir = m.phys dir)
    (htable : ∀ t, m.tableFrame dir (v / 1024) = some t → m'.phys t = m.phys t) :
    m'.userFrame dir v = m.userFrame dir v := by
  rw [Machine.userFrame, Machine.userFrame, tableFrame_congr hdir]
  cases ht : m.tableFrame dir (v / 1024) with
  | none => rfl
  | some t => exact entryFrame_congr (htable t ht) _

theorem userFrame_eq_some :
    m.userFrame dir v = some f ↔
      ∃ t, m.tableFrame dir (v / 1024) = some t ∧ m.entryFrame t (v % 1024) = some f := by
  rw [Machine.userFrame, Option.bind_eq_some_iff]

theorem pdeIdx_page (v : Nat) : Machine.pdeIdx (v * pgSize) = v / 1024 := by
  rw [Machine.pdeIdx, pgSize]
  omega

theorem pteIdx_page (v : Nat) : Machine.pteIdx (v * pgSize) = v % 1024 := by
  rw [Machine.pteIdx, pgSize]
  omega

/-- The processor finds the frame that the walk finds. -/
theorem frameAt_user (hv : v < userPages) :
    m.frameAt (v * pgSize) = .ok f ↔ m.userFrame (Machine.frameOf m.cr3) v = some f := by
  have hlow : ¬ kernelStart ≤ v * pgSize := by
    rw [userPages] at hv
    rw [kernelStart, pgSize]
    omega
  rw [Machine.frameAt, Machine.pteAt, if_neg hlow, Machine.pdeIn, pdeIdx_page, pteIdx_page,
    Machine.userFrame, Machine.tableFrame]
  by_cases hdir : Machine.present (m.word (Machine.frameOf m.cr3) (v / 1024))
  · rw [if_pos hdir, if_pos hdir, Outcome.ok_bind, Option.bind_some, Machine.entryFrame]
    split <;> simp
  · rw [if_neg hdir, if_neg hdir, Outcome.error_bind, Option.bind_none]
    simp

/-! ## Address spaces made of fresh frames -/

/-- The page tables and the pages of the address space of `dir` are frames that
    were free in `m₁` and are not free any more; each of them is in one place. -/
structure Space (L : Layout) (m₁ m : Machine) (dir : Nat) : Prop where
  dirUsed : ¬ Free L m₁ dir
  table : ∀ d t, d < 768 → m.tableFrame dir d = some t → FreeIn L m₁ .kernel t ∧ ¬ Free L m t
  tableInj : ∀ d d' t, d < 768 → d' < 768 → m.tableFrame dir d = some t →
    m.tableFrame dir d' = some t → d = d'
  page : ∀ v f, v < userPages → m.userFrame dir v = some f → FreeIn L m₁ .user f ∧ ¬ Free L m f
  pageInj : ∀ v v' f, v < userPages → v' < userPages → m.userFrame dir v = some f →
    m.userFrame dir v' = some f → v = v'

theorem Space.table_ne_dir {d t : Nat} (h : Space L m₁ m dir) (hd : d < 768)
    (ht : m.tableFrame dir d = some t) : t ≠ dir := by
  rintro rfl
  exact h.dirUsed ⟨_, (h.table d t hd ht).1⟩

/-- A page directory without page tables. -/
theorem Space.empty (hdir : ¬ Free L m₁ dir) (hempty : ∀ d, d < 768 → m.tableFrame dir d = none) :
    Space L m₁ m dir := by
  have htable : ∀ d t, d < 768 → m.tableFrame dir d ≠ some t := by
    intro d t hd
    rw [hempty d hd]
    simp
  have hpage : ∀ v f, v < userPages → m.userFrame dir v ≠ some f := by
    intro v f hv hf
    obtain ⟨t, ht, -⟩ := userFrame_eq_some.1 hf
    rw [userPages] at hv
    exact htable _ t (by omega) ht
  exact ⟨hdir, fun d t hd ht => absurd ht (htable d t hd),
    fun d _ t hd _ ht => absurd ht (htable d t hd), fun v f hv hf => absurd hf (hpage v f hv),
    fun v _ f hv _ hf => absurd hf (hpage v f hv)⟩

/-- Frames are taken, and only frames of page tables and `dir` are written. -/
structure Grows (L : Layout) (m₁ m m' : Machine) (dir : Nat) : Prop where
  layout : L.Of m'
  free : ∀ pf g, FreeIn L m' pf g → FreeIn L m pf g
  phys : ∀ g, g ≠ dir → ¬ FreeIn L m₁ .kernel g → m'.phys g = m.phys g
  kernelPte : m'.kernelPte = m.kernelPte
  tcb : m'.tcb = m.tcb
  cr3 : m'.cr3 = m.cr3

theorem Grows.used {g : Nat} (h : Grows L m₁ m m' dir) (hg : ¬ Free L m g) : ¬ Free L m' g := by
  rintro ⟨pf, hfree⟩
  exact hg ⟨pf, h.free pf g hfree⟩

/-! ## Mapping a page -/

/-- Storing an entry changes that entry of the table. -/
theorem entryFrame_setWord {t i j : Nat} (hf : f < 2 ^ 20) :
    (m.setWord t i (Machine.entryOf (f * pgSize))).entryFrame t j
      = if j = i then some f else m.entryFrame t j := by
  by_cases hji : j = i
  · subst hji
    rw [if_pos rfl, Machine.entryFrame, Machine.word_setWord_self m t j (entryOf_lt hf),
      if_pos (present_entryOf f), frameOf_entryOf]
  · rw [if_neg hji, Machine.entryFrame, Machine.entryFrame, Machine.word_setWord_idx m t _ hji]

theorem tableFrame_setWord {i j : Nat} (hf : f < 2 ^ 20) :
    (m.setWord dir i (Machine.entryOf (f * pgSize))).tableFrame dir j
      = if j = i then some f else m.tableFrame dir j :=
  entryFrame_setWord hf

/-- The page table of `v` gets an entry. -/
theorem userFrame_setEntry {t : Nat} (hspace : Space L m₁ m dir) (hv : v < userPages)
    (hf : f < 2 ^ 20) (ht : m.tableFrame dir (v / 1024) = some t) {v' : Nat}
    (hv' : v' < userPages) :
    (m.setWord t (v % 1024) (Machine.entryOf (f * pgSize))).userFrame dir v'
      = if v' = v then some f else m.userFrame dir v' := by
  rw [userPages] at hv hv'
  have hne := hspace.table_ne_dir (by omega) ht
  have hdir : (m.setWord t (v % 1024) (Machine.entryOf (f * pgSize))).tableFrame dir (v' / 1024)
      = m.tableFrame dir (v' / 1024) := by
    refine tableFrame_congr ?_ _
    rw [Machine.setWord, Machine.setFrame_phys, Function.update_of_ne hne.symm]
  rw [Machine.userFrame, hdir, Machine.userFrame]
  -- pages of the same table differ in the index, those of others in the table
  by_cases hsame : v' / 1024 = v / 1024
  · rw [hsame, ht, Option.bind_some, Option.bind_some, entryFrame_setWord hf]
    by_cases heq : v' = v
    · rw [if_pos heq, if_pos (by rw [heq])]
    · rw [if_neg heq, if_neg (by omega)]
  · rw [if_neg (fun heq => hsame (by rw [heq]))]
    cases ht' : m.tableFrame dir (v' / 1024) with
    | none => rfl
    | some t' =>
        -- another entry of the page directory names another table
        have htt : t' ≠ t := by
          rintro rfl
          exact hsame (hspace.tableInj _ _ _ (by omega) (by omega) ht' ht)
        refine entryFrame_congr ?_ _
        rw [Machine.setWord, Machine.setFrame_phys, Function.update_of_ne htt]

/-- A space with one more page. -/
theorem Space.add (h : Space L m₁ m dir) (hmono : ∀ g, ¬ Free L m g → ¬ Free L m' g)
    (hf : FreeIn L m₁ .user f) (hused : ¬ Free L m' f)
    (hfresh : ∀ v', v' < userPages → m.userFrame dir v' ≠ some f)
    (htable : ∀ d, d < 768 → m'.tableFrame dir d = m.tableFrame dir d)
    (hpage : ∀ v', v' < userPages →
      m'.userFrame dir v' = if v' = v then some f else m.userFrame dir v') :
    Space L m₁ m' dir := by
  refine ⟨h.dirUsed, fun d t hd ht => ?_, fun d d' t hd hd' ht ht' => ?_, fun w g hw hg => ?_,
    fun w w' g hw hw' hg hg' => ?_⟩
  · rw [htable d hd] at ht
    exact ⟨(h.table d t hd ht).1, hmono t (h.table d t hd ht).2⟩
  · rw [htable d hd] at ht
    rw [htable d' hd'] at ht'
    exact h.tableInj d d' t hd hd' ht ht'
  · rw [hpage w hw] at hg
    split at hg
    · cases hg
      exact ⟨hf, hused⟩
    · exact ⟨(h.page w g hw hg).1, hmono g (h.page w g hw hg).2⟩
  · rw [hpage w hw] at hg
    rw [hpage w' hw'] at hg'
    split at hg
    · rename_i hwv
      cases hg
      split at hg'
      · rename_i hwv'
        rw [hwv, hwv']
      · exact absurd hg' (hfresh w' hw')
    · split at hg'
      · cases hg'
        exact absurd hg (hfresh w hw)
      · exact h.pageInj w w' g hw hw' hg hg'

/-- A space with one more page table, which is empty. -/
theorem Space.addTable {t d : Nat} (h : Space L m₁ m dir)
    (hmono : ∀ g, ¬ Free L m g → ¬ Free L m' g) (ht : FreeIn L m₁ .kernel t)
    (hused : ¬ Free L m' t) (hfresh : ∀ d', d' < 768 → m.tableFrame dir d' ≠ some t)
    (htable : ∀ d', d' < 768 → m'.tableFrame dir d' = if d' = d then some t else m.tableFrame dir d')
    (hpage : ∀ v, v < userPages → m'.userFrame dir v = m.userFrame dir v) :
    Space L m₁ m' dir := by
  refine ⟨h.dirUsed, fun e s he hs => ?_, fun e e' s he he' hs hs' => ?_, fun w g hw hg => ?_,
    fun w w' g hw hw' hg hg' => ?_⟩
  · rw [htable e he] at hs
    split at hs
    · cases hs
      exact ⟨ht, hused⟩
    · exact ⟨(h.table e s he hs).1, hmono s (h.table e s he hs).2⟩
  · rw [htable e he] at hs
    rw [htable e' he'] at hs'
    split at hs
    · rename_i hed
      cases hs
      split at hs'
      · rename_i hed'
        rw [hed, hed']
      · exact absurd hs' (hfresh e' he')
    · split at hs'
      · cases hs'
        exact absurd hs (hfresh e he)
      · exact h.tableInj e e' s he he' hs hs'
  · rw [hpage w hw] at hg
    exact ⟨(h.page w g hw hg).1, hmono g (h.page w g hw hg).2⟩
  · rw [hpage w hw] at hg
    rw [hpage w' hw'] at hg'
    exact h.pageInj w w' g hw hw' hg hg'

theorem Grows.trans {m'' : Machine} (h : Grows L m₁ m m' dir) (h' : Grows L m₁ m' m'' dir) :
    Grows L m₁ m m'' dir where
  layout := h'.layout
  free pf g hg := h.free pf g (h'.free pf g hg)
  phys g hne hg := (h'.phys g hne hg).trans (h.phys g hne hg)
  kernelPte := h'.kernelPte.trans h.kernelPte
  tcb := h'.tcb.trans h.tcb
  cr3 := h'.cr3.trans h.cr3

/-- The page table of `v` is there. -/
theorem setEntry_spec {t : Nat} (hL : L.Of m) (hspace : Space L m₁ m dir) (hv : v < userPages)
    (hf : FreeIn L m₁ .user f) (hused : ¬ Free L m f)
    (hfresh : ∀ v', v' < userPages → m.userFrame dir v' ≠ some f)
    (ht : m.tableFrame dir (v / 1024) = some t) :
    Grows L m₁ m (m.setWord t (v % 1024) (Machine.entryOf (f * pgSize))) dir
      ∧ Space L m₁ (m.setWord t (v % 1024) (Machine.entryOf (f * pgSize))) dir
      ∧ ∀ v', v' < userPages →
          (m.setWord t (v % 1024) (Machine.entryOf (f * pgSize))).userFrame dir v'
            = if v' = v then some f else m.userFrame dir v' := by
  have hlt : v / 1024 < 768 := by
    rw [userPages] at hv
    omega
  have hphys : ∀ g, g ≠ t →
      (m.setWord t (v % 1024) (Machine.entryOf (f * pgSize))).phys g = m.phys g := by
    intro g hg
    rw [Machine.setWord, Machine.setFrame_phys, Function.update_of_ne hg]
  have hne := hspace.table_ne_dir hlt ht
  have hpage := fun v' (hv' : v' < userPages) => userFrame_setEntry hspace hv hf.lt ht hv'
  refine ⟨⟨⟨hL.start, hL.byteLen, hL.vaddrStart, hL.vaddrLen⟩, fun _ _ hg => hg,
    fun g _ hg => hphys g ?_, rfl, rfl, rfl⟩, ?_, hpage⟩
  · rintro rfl
    exact hg (hspace.table _ _ hlt ht).1
  · exact hspace.add (fun _ hg => hg) hf hused hfresh
      (fun d _ => tableFrame_congr (hphys dir hne.symm) d) hpage

/-- A page table that was free in `m₁` and is in use now is put into entry `d`. -/
theorem newTable_spec {t d : Nat} (hL : L.Of m) (hspace : Space L m₁ m dir) (hd : d < 768)
    (ht : FreeIn L m₁ .kernel t) (hused : ¬ Free L m t)
    (hfresh : ∀ d', d' < 768 → m.tableFrame dir d' ≠ some t)
    (hnone : m.tableFrame dir d = none)
    (hm' : m' = (m.setWord dir d (Machine.entryOf (t * pgSize))).setFrame t
      (fill ((m.setWord dir d (Machine.entryOf (t * pgSize))).phys t) 0 0 pgSize)) :
    Grows L m₁ m m' dir ∧ Space L m₁ m' dir ∧ m'.tableFrame dir d = some t
      ∧ ∀ v, v < userPages → m'.userFrame dir v = m.userFrame dir v := by
  have hne : t ≠ dir := by
    rintro rfl
    exact hspace.dirUsed ⟨_, ht⟩
  have hphys : ∀ g, g ≠ dir → g ≠ t → m'.phys g = m.phys g := by
    intro g hgd hgt
    rw [hm', Machine.setFrame_phys, Function.update_of_ne hgt, Machine.setWord,
      Machine.setFrame_phys, Function.update_of_ne hgd]
  have htable : ∀ d', d' < 768 →
      m'.tableFrame dir d' = if d' = d then some t else m.tableFrame dir d' := by
    intro d' _
    rw [← tableFrame_setWord ht.lt]
    refine tableFrame_congr ?_ d'
    rw [hm', Machine.setFrame_phys, Function.update_of_ne hne.symm]
  -- the new page table is cleared, so none of its pages is mapped
  have hzero : ∀ i, i < 1024 → m'.entryFrame t i = none := by
    intro i hi
    rw [Machine.entryFrame, hm', Machine.word_zeroed _ hi, if_neg (by decide)]
  have hpage : ∀ v, v < userPages → m'.userFrame dir v = m.userFrame dir v := by
    intro v hv
    rw [userPages] at hv
    have hlt : v / 1024 < 768 := by omega
    rw [Machine.userFrame, htable _ hlt, Machine.userFrame]
    by_cases hvd : v / 1024 = d
    · rw [if_pos hvd, hvd, hnone, Option.bind_some, Option.bind_none]
      exact hzero _ (by omega)
    · rw [if_neg hvd]
      cases ht' : m.tableFrame dir (v / 1024) with
      | none => rfl
      | some t' =>
          have htt : t' ≠ t := fun heq => hfresh _ hlt (heq ▸ ht')
          exact entryFrame_congr (hphys t' (hspace.table_ne_dir hlt ht') htt) _
  have hfree : ∀ pf g, FreeIn L m' pf g ↔ FreeIn L m pf g := by
    intro pf g
    rw [hm']
    exact Iff.rfl
  refine ⟨⟨?_, fun pf g => (hfree pf g).1, fun g hgd hg => hphys g hgd ?_, ?_, ?_, ?_⟩, ?_, ?_,
    hpage⟩
  · rw [hm']
    exact ⟨hL.start, hL.byteLen, hL.vaddrStart, hL.vaddrLen⟩
  · rintro rfl
    exact hg ht
  · rw [hm']
    rfl
  · rw [hm']
    rfl
  · rw [hm']
    rfl
  · refine hspace.addTable (fun g hg => ?_) ht ?_ hfresh htable hpage
    · rintro ⟨pf, hg'⟩
      exact hg ⟨pf, (hfree pf g).1 hg'⟩
    · rintro ⟨pf, hg'⟩
      exact hused ⟨pf, (hfree pf t).1 hg'⟩
  · rw [htable d hd, if_pos rfl]

/-- The address space is the same where its page directory and page tables were
    not written. -/
theorem Space.of_same (h : Space L m₁ m dir) (hdir : m'.phys dir = m.phys dir)
    (htables : ∀ d t, d < 768 → m.tableFrame dir d = some t → m'.phys t = m.phys t)
    (hmono : ∀ g, ¬ Free L m g → ¬ Free L m' g) : Space L m₁ m' dir := by
  have htable : ∀ d, m'.tableFrame dir d = m.tableFrame dir d := tableFrame_congr hdir
  have hpage : ∀ v, v < userPages → m'.userFrame dir v = m.userFrame dir v := by
    intro v hv
    rw [userPages] at hv
    exact userFrame_congr hdir (htables _ · (by omega))
  refine ⟨h.dirUsed, fun d t hd ht => ?_, fun d d' t hd hd' ht ht' => ?_, fun w g hw hg => ?_,
    fun w w' g hw hw' hg hg' => ?_⟩
  · rw [htable] at ht
    exact ⟨(h.table d t hd ht).1, hmono t (h.table d t hd ht).2⟩
  · rw [htable] at ht ht'
    exact h.tableInj d d' t hd hd' ht ht'
  · rw [hpage w hw] at hg
    exact ⟨(h.page w g hw hg).1, hmono g (h.page w g hw hg).2⟩
  · rw [hpage w hw] at hg
    rw [hpage w' hw'] at hg'
    exact h.pageInj w w' g hw hw' hg hg'

/-- `palloc` beside an address space. -/
theorem Space.of_palloc {pf : PoolFlags} {r : Option Nat} (h : Space L m₁ m dir) (hL : L.Of m)
    (hcall : m.palloc pf = .ok (r, m')) :
    ∃ f, r = some (f * pgSize) ∧ FreeIn L m pf f ∧ ¬ Free L m' f ∧ Grows L m₁ m m' dir
      ∧ Space L m₁ m' dir ∧ (∀ d, m'.tableFrame dir d = m.tableFrame dir d)
      ∧ ∀ v, m'.userFrame dir v = m.userFrame dir v := by
  obtain ⟨f, hr, hf, hL', hsame, hfree⟩ := palloc_spec hL hcall
  have hmono : ∀ g, ¬ Free L m g → ¬ Free L m' g := by
    rintro g hg ⟨pf', hg'⟩
    exact hg ⟨pf', ((hfree pf' g).1 hg').1⟩
  refine ⟨f, hr, hf, ?_, ⟨hL', fun pf' g hg => ((hfree pf' g).1 hg).1, fun g _ _ => by rw [hsame.phys],
    hsame.kernelPte, hsame.tcb, hsame.cr3⟩, h.of_same (by rw [hsame.phys])
    (fun _ _ _ _ => by rw [hsame.phys]) hmono, fun d => ?_, fun v => ?_⟩
  · rintro ⟨pf', hg⟩
    exact ((hfree pf' f).1 hg).2 rfl
  · exact tableFrame_congr (by rw [hsame.phys]) d
  · exact userFrame_congr (by rw [hsame.phys]) fun t _ => by rw [hsame.phys]

/-- Where the walk reads frames in use, taking others leaves it as it was. -/
theorem Takes.userFrame (h : Takes L m m') (hdir : ¬ Free L m dir)
    (htable : ∀ d t, d < 768 → m.tableFrame dir d = some t → ¬ Free L m t) (hv : v < userPages) :
    m'.userFrame dir v = m.userFrame dir v := by
  rw [userPages] at hv
  exact userFrame_congr (h.phys dir hdir) fun t ht => h.phys t (htable _ t (by omega) ht)

/-- `page_table_add` in an address space of fresh frames. -/
theorem addUserPage_spec (hL : L.Of m) (hspace : Space L m₁ m dir)
    (hmono : ∀ pf g, FreeIn L m pf g → FreeIn L m₁ pf g) (hv : v < userPages)
    (hf : FreeIn L m₁ .user f) (hused : ¬ Free L m f)
    (hfresh : ∀ v', v' < userPages → m.userFrame dir v' ≠ some f)
    (hcall : m.addUserPage dir (v * pgSize) (f * pgSize) = .ok m') :
    Grows L m₁ m m' dir ∧ Space L m₁ m' dir
      ∧ ∀ v', v' < userPages →
          m'.userFrame dir v' = if v' = v then some f else m.userFrame dir v' := by
  have hlt : v / 1024 < 768 := by
    rw [userPages] at hv
    omega
  rw [Machine.addUserPage, Machine.pdeIn, pdeIdx_page, pteIdx_page] at hcall
  by_cases hpde : Machine.present (m.word dir (v / 1024))
  · -- the page table is there
    rw [if_pos hpde] at hcall
    obtain ⟨_, -, hcall⟩ := Outcome.bind_eq_ok.1 hcall
    cases hcall
    exact setEntry_spec hL hspace hv hf hused hfresh (if_pos hpde)
  · -- a page table is taken from the pool of the kernel
    rw [if_neg hpde] at hcall
    obtain ⟨⟨r, m₂⟩, hpalloc, hcall⟩ := Outcome.bind_eq_ok.1 hcall
    obtain ⟨t, rfl, ht, htused, hgrows₂, hspace₂, htable₂, hpage₂⟩ := hspace.of_palloc hL hpalloc
    have hframe : Machine.frameOf (t * pgSize) = t := Nat.mul_div_cancel t (by norm_num [pgSize])
    simp only [Option.getD_some, hframe] at hcall
    obtain ⟨_, -, hcall⟩ := Outcome.bind_eq_ok.1 hcall
    have hfresh₂ : ∀ d', d' < 768 → m₂.tableFrame dir d' ≠ some t := by
      intro d' hd' ht'
      rw [htable₂] at ht'
      exact (hspace.table d' t hd' ht').2 ⟨_, ht⟩
    -- first the empty table goes in, and then the page into the table
    obtain ⟨hgrows₃, hspace₃, ht₃, hpage₃⟩ := newTable_spec hgrows₂.layout hspace₂ hlt
      (hmono _ _ ht) htused hfresh₂ ((htable₂ _).trans (if_neg hpde)) rfl
    have hfresh₃ := fun v' (hv' : v' < userPages) =>
      (((hpage₃ v' hv').trans (hpage₂ v')).trans_ne (hfresh v' hv'))
    obtain ⟨hgrows₄, hspace₄, hpage₄⟩ := setEntry_spec hgrows₃.layout hspace₃ hv hf
      (hgrows₃.used (hgrows₂.used hused)) hfresh₃ ht₃
    cases hcall
    refine ⟨(hgrows₂.trans hgrows₃).trans hgrows₄, hspace₄, fun v' hv' => ?_⟩
    rw [hpage₄ v' hv', hpage₃ v' hv', hpage₂]

end Kernel
end JackOS
