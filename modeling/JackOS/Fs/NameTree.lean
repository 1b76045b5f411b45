/-
  JackOS.Fs.NameTree

  The tree of names, without disk and nodes: which entries each directory has.
  Every object but the root has one entry that is not "." or "..", in the
  directory `parent` says.  Taking away the entry of a file or of an empty
  directory keeps the tree whole (`NameTree.loses`), and afterwards no path leads
  to what the entry was for (`Loses.unreachable`).  Putting in an entry for a
  new object keeps it whole as well (`NameTree.gains`), and the paths that led
  somewhere still lead there (`Gains.reach`).
-/

import JackOS.Fs.DirDelete
import JackOS.Fs.Getcwd

namespace JackOS
namespace Fs

open Base

/-- A tree of names.  `isDir` says which objects are directories. -/
structure NameTree (tree : Nat → List Entry) (isDir : Nat → Prop) (parent : Nat → Nat) : Prop where
  shape : TreeShape tree parent
  root : isDir 0
  nodup : ∀ m, (tree m).Nodup
  only : ∀ m, ¬ isDir m → tree m = []
  directory : ∀ m, ∀ e ∈ tree m, (e.fType = FileType.directory.toWord ↔ isDir e.iNo)
  dots : ∀ m, isDir m → ∀ name, name = dot ∨ name = dotDot → ∃ e ∈ tree m, e.name = name
  linked : ∀ m, m ≠ 0 → isDir m → ∃ e ∈ tree (parent m), e.Plain ∧ e.iNo = m
  home : ∀ m, ∀ e ∈ tree m, e.Plain → parent e.iNo = m

/-- Directory `n` has no entries but "." and "..". -/
def EmptyDir (tree : Nat → List Entry) (n : Nat) : Prop := ∀ e ∈ tree n, ¬ e.Plain

/-- Directory `p` lost its entry for `n`, and `n` has none of its own any more. -/
structure Loses (tree tree' : Nat → List Entry) (p n : Nat) : Prop where
  entry : ∃ e : Entry, e.Plain ∧ e.iNo = n ∧ (tree p).Perm (e :: tree' p)
  gone : tree' n = []
  others : ∀ m, m ≠ p → m ≠ n → tree' m = tree m

variable {tree tree' : Nat → List Entry} {isDir : Nat → Prop} {parent : Nat → Nat}
  {m n p : Nat} {e : Entry}

/-! ## Entries -/

theorem NameTree.isDir_of_mem (h : NameTree tree isDir parent) (he : e ∈ tree m) : isDir m := by
  by_contra hno
  rw [h.only m hno] at he
  cases he

theorem NameTree.plain_ne_root (h : NameTree tree isDir parent) (he : e ∈ tree m) (hplain : e.Plain) :
    e.iNo ≠ 0 := by
  intro hzero
  have hdir : e.fType = FileType.directory.toWord := (h.directory m e he).2 (hzero ▸ h.root)
  exact (h.shape.child m e he hdir hplain.1 hplain.2).1 hzero

/-- An entry is found under its name. -/
theorem NameTree.lookup_name (h : NameTree tree isDir parent) (he : e ∈ tree m) :
    lookup (tree m) e.name = some e := by
  cases hfind : lookup (tree m) e.name with
  | none =>
      have hno := List.find?_eq_none.1 hfind e he
      simp at hno
  | some e' =>
      have hname := List.find?_some hfind
      rw [decide_eq_true_eq] at hname
      rw [h.shape.unique m e' (List.mem_of_find?_eq_some hfind) e he hname]

/-- "." and ".." of the root lead to the root. -/
theorem NameTree.rootDots (h : NameTree tree isDir parent) {name : List UInt8}
    (hname : name = dot ∨ name = dotDot) : ∃ e, lookup (tree 0) name = some e ∧ e.iNo = 0 := by
  obtain ⟨e, he, rfl⟩ := h.dots 0 h.root name hname
  refine ⟨e, h.lookup_name he, ?_⟩
  rcases hname with hdot | hdotDot
  · exact h.shape.dot 0 e he hdot
  · rw [h.shape.dotDot 0 e he hdotDot, h.shape.rootParent]

/-- ".." leads to a directory. -/
theorem NameTree.parent_isDir (h : NameTree tree isDir parent) (hm : isDir m) : isDir (parent m) := by
  by_cases hm0 : m = 0
  · rw [hm0, h.shape.rootParent]
    exact h.root
  · obtain ⟨e, he, -⟩ := h.linked m hm0 hm
    exact h.isDir_of_mem he

/-- What leads to a file or to a directory without entries of its own is its "."
    and the entry in its parent. -/
theorem NameTree.leads (h : NameTree tree isDir parent) (hempty : EmptyDir tree n) (he : e ∈ tree m)
    (hno : e.iNo = n) : m = n ∨ m = parent n ∧ e.Plain := by
  by_cases hdot : e.name = dot
  · exact .inl ((h.shape.dot m e he hdot).symm.trans hno)
  by_cases hdotDot : e.name = dotDot
  · left
    have hparent := (h.shape.dotDot m e he hdotDot).symm.trans hno
    by_contra hne
    have hm0 : m ≠ 0 := by
      rintro rfl
      exact hne (h.shape.rootParent.symm.trans hparent)
    -- the directory would have an entry for `m`
    obtain ⟨e', he', hplain, -⟩ := h.linked m hm0 (h.isDir_of_mem he)
    rw [hparent] at he'
    exact hempty e' he' hplain
  · exact .inr ⟨by rw [← hno, h.home m e he ⟨hdot, hdotDot⟩], hdot, hdotDot⟩

/-- A directory is empty if and only if it has two entries. -/
theorem NameTree.emptyDir_iff (h : NameTree tree isDir parent) (hn : isDir n) :
    EmptyDir tree n ↔ (tree n).length = 2 := by
  obtain ⟨e₁, he₁, hdot⟩ := h.dots n hn dot (.inl rfl)
  obtain ⟨e₂, he₂, hdotDot⟩ := h.dots n hn dotDot (.inr rfl)
  have hne : e₁ ≠ e₂ := by
    rintro rfl
    rw [hdot] at hdotDot
    exact absurd hdotDot (by decide)
  have hsub : [e₁, e₂] ⊆ tree n := List.cons_subset.2 ⟨he₁, List.cons_subset.2 ⟨he₂, List.nil_subset _⟩⟩
  have hpair : [e₁, e₂].Nodup := by simp [hne]
  constructor
  · intro hempty
    have hsup : tree n ⊆ [e₁, e₂] := by
      intro e he
      by_cases hd : e.name = dot
      · rw [h.shape.unique n e he e₁ he₁ (hd.trans hdot.symm)]
        exact List.mem_cons_self
      · have hdd : e.name = dotDot := by
          by_contra hdd
          exact hempty e he ⟨hd, hdd⟩
        rw [h.shape.unique n e he e₂ he₂ (hdd.trans hdotDot.symm)]
        exact List.mem_cons_of_mem _ List.mem_cons_self
    exact Nat.le_antisymm ((h.nodup n).subperm hsup).length_le (hpair.subperm hsub).length_le
  · intro hlen e he hplain
    have hperm := (hpair.subperm hsub).perm_of_length_le (by rw [hlen]; rfl)
    have hmem := hperm.symm.subset he
    rcases List.mem_cons.1 hmem with rfl | hmem
    · exact hplain.1 hdot
    · rw [List.mem_singleton.1 hmem] at hplain
      exact hplain.2 hdotDot

/-! ## Taking an entry away -/

theorem Loses.of_mem (h : Loses tree tree' p n) (he : e ∈ tree' m) : e ∈ tree m ∧ m ≠ n := by
  have hmn : m ≠ n := by
    rintro rfl
    rw [h.gone] at he
    cases he
  refine ⟨?_, hmn⟩
  by_cases hmp : m = p
  · subst hmp
    obtain ⟨e₀, -, -, hperm⟩ := h.entry
    exact hperm.symm.subset (List.mem_cons_of_mem _ he)
  · rw [h.others m hmp hmn] at he
    exact he

theorem Loses.mem (h : Loses tree tree' p n) (he : e ∈ tree m) (hmn : m ≠ n) (hne : e.iNo ≠ n) :
    e ∈ tree' m := by
  by_cases hmp : m = p
  · subst hmp
    obtain ⟨e₀, -, hno, hperm⟩ := h.entry
    rcases List.mem_cons.1 (hperm.subset he) with rfl | he
    · exact absurd hno hne
    · exact he
  · rw [h.others m hmp hmn]
    exact he

/-- Afterwards nothing leads to `n`. -/
theorem Loses.iNo_ne (h : Loses tree tree' p n) (hnames : NameTree tree isDir parent)
    (hempty : EmptyDir tree n) (he : e ∈ tree' m) : e.iNo ≠ n := by
  intro hno
  obtain ⟨he₁, hmn⟩ := h.of_mem he
  obtain ⟨e₀, hplain₀, hno₀, hperm⟩ := h.entry
  have he₀ : e₀ ∈ tree p := hperm.symm.subset List.mem_cons_self
  obtain ⟨hm, hplain⟩ := (hnames.leads hempty he₁ hno).resolve_left hmn
  have hp : p = m := by rw [← hnames.home p e₀ he₀ hplain₀, hno₀, hm]
  subst hp
  -- the two would be one entry
  have heq := hnames.shape.oneName p e he₁ e₀ he₀ hplain.1 hplain.2 hplain₀.1 hplain₀.2
    (hno.trans hno₀.symm)
  subst heq
  have hnodup := hperm.nodup_iff.1 (hnames.nodup p)
  exact (List.nodup_cons.1 hnodup).1 he

/-- The tree stays whole. -/
theorem NameTree.loses (hnames : NameTree tree isDir parent) (hempty : EmptyDir tree n)
    (h : Loses tree tree' p n) : NameTree tree' (fun m => isDir m ∧ m ≠ n) parent := by
  obtain ⟨e₀, hplain₀, hno₀, hperm⟩ := h.entry
  have he₀ : e₀ ∈ tree p := hperm.symm.subset List.mem_cons_self
  have hsub : ∀ {m e}, e ∈ tree' m → e ∈ tree m := fun he => (h.of_mem he).1
  have hnot : ∀ {m e}, e ∈ tree' m → e.iNo ≠ n := fun he => h.iNo_ne hnames hempty he
  have hshape := hnames.shape
  constructor
  case shape =>
    exact ⟨fun m e he => hshape.isName m e (hsub he),
      fun m e he e' he' => hshape.unique m e (hsub he) e' (hsub he'),
      fun m e he => hshape.dot m e (hsub he), fun m e he => hshape.dotDot m e (hsub he),
      hshape.rootParent, fun m e he => hshape.child m e (hsub he),
      fun m e he e' he' => hshape.oneName m e (hsub he) e' (hsub he')⟩
  case root =>
    refine ⟨hnames.root, fun hzero => ?_⟩
    exact hnames.plain_ne_root he₀ hplain₀ (hno₀.trans hzero.symm)
  case nodup =>
    intro m
    by_cases hmn : m = n
    · rw [hmn, h.gone]
      exact List.nodup_nil
    · by_cases hmp : m = p
      · subst hmp
        exact (List.nodup_cons.1 (hperm.nodup_iff.1 (hnames.nodup m))).2
      · rw [h.others m hmp hmn]
        exact hnames.nodup m
  case only =>
    intro m hno
    by_cases hmn : m = n
    · rw [hmn, h.gone]
    · have hno : ¬ isDir m := fun hm => hno ⟨hm, hmn⟩
      have hmp : m ≠ p := by
        rintro rfl
        exact hno (hnames.isDir_of_mem he₀)
      rw [h.others m hmp hmn]
      exact hnames.only m hno
  case directory =>
    intro m e he
    rw [hnames.directory m e (hsub he)]
    exact ⟨fun hdir => ⟨hdir, hnot he⟩, And.left⟩
  case dots =>
    rintro m ⟨hm, hmn⟩ name hname
    obtain ⟨e, he, heq⟩ := hnames.dots m hm name hname
    refine ⟨e, h.mem he hmn fun hno => ?_, heq⟩
    -- only the plain entry is for `n`
    obtain ⟨-, hplain⟩ := (hnames.leads hempty he hno).resolve_left hmn
    rw [← heq] at hname
    exact hname.elim hplain.1 hplain.2
  case linked =>
    rintro m hm0 ⟨hm, hmn⟩
    obtain ⟨e, he, hplain, hno⟩ := hnames.linked m hm0 hm
    have hparent : parent m ≠ n := by
      intro hn
      rw [hn] at he
      exact hempty e he hplain
    exact ⟨e, h.mem he hparent (by rwa [hno]), hplain, hno⟩
  case home =>
    exact fun m e he => hnames.home m e (hsub he)

/-! ## Putting an entry in -/

/-- The entries of a new directory `n` in `p`. -/
def DotsOnly (l : List Entry) (n p : Nat) : Prop :=
  ∃ e₁ e₂ : Entry, l = [e₁, e₂] ∧ (e₁.name = dot ∧ e₁.iNo = n) ∧ (e₂.name = dotDot ∧ e₂.iNo = p)
    ∧ e₁.fType = FileType.directory.toWord ∧ e₂.fType = FileType.directory.toWord

/-- Directory `p` got the entry `e`; what it is for was not there before. -/
structure Gains (tree tree' : Nat → List Entry) (p : Nat) (e : Entry) : Prop where
  entry : (tree' p).Perm (e :: tree p)
  directory : e.fType = FileType.directory.toWord → DotsOnly (tree' e.iNo) e.iNo p
  file : e.fType ≠ FileType.directory.toWord → tree' e.iNo = []
  others : ∀ m, m ≠ p → m ≠ e.iNo → tree' m = tree m

/-- An entry that `p` has room for: its name is new there, and its number is new
    everywhere. -/
structure NewEntry (tree : Nat → List Entry) (isDir : Nat → Prop) (p : Nat) (e : Entry) :
    Prop where
  inDir : isDir p
  isName : IsName e.name ∧ slash ∉ e.name
  newName : ∀ e' ∈ tree p, e'.name ≠ e.name
  newNo : ∀ m, ∀ e' ∈ tree m, e'.iNo ≠ e.iNo
  notDir : ¬ isDir e.iNo

/-- The directories once `e` is there. -/
def dirsWith (isDir : Nat → Prop) (e : Entry) (m : Nat) : Prop :=
  isDir m ∨ m = e.iNo ∧ e.fType = FileType.directory.toWord

theorem NewEntry.ne (h : NewEntry tree isDir p e) : p ≠ e.iNo := by
  rintro rfl
  exact h.notDir h.inDir

/-- A new name is not "." or "..". -/
theorem NewEntry.plain (h : NewEntry tree isDir p e) (hnames : NameTree tree isDir parent) :
    e.Plain := by
  constructor
  · intro hdot
    obtain ⟨e', he', hname⟩ := hnames.dots p h.inDir dot (.inl rfl)
    exact h.newName e' he' (hname.trans hdot.symm)
  · intro hdotDot
    obtain ⟨e', he', hname⟩ := hnames.dots p h.inDir dotDot (.inr rfl)
    exact h.newName e' he' (hname.trans hdotDot.symm)

/-- What stands in the tree now stood there before, or is the new entry, or is
    one of the dots of the new directory. -/
theorem Gains.mem_cases (h : Gains tree tree' p e) (hne : p ≠ e.iNo) {e' : Entry}
    (he : e' ∈ tree' m) : e' ∈ tree m ∧ m ≠ e.iNo ∨ m = p ∧ e' = e
      ∨ m = e.iNo ∧ e.fType = FileType.directory.toWord ∧ e'.fType = FileType.directory.toWord
        ∧ (e'.name = dot ∧ e'.iNo = m ∨ e'.name = dotDot ∧ e'.iNo = p) := by
  by_cases hmn : m = e.iNo
  · subst hmn
    by_cases hdir : e.fType = FileType.directory.toWord
    · obtain ⟨e₁, e₂, heq, hdot, hdotDot, htype, htype'⟩ := h.directory hdir
      rw [heq] at he
      refine .inr (.inr ⟨rfl, hdir, ?_⟩)
      rcases List.mem_cons.1 he with rfl | he
      · exact ⟨htype, .inl hdot⟩
      · rw [List.mem_singleton.1 he]
        exact ⟨htype', .inr hdotDot⟩
    · rw [h.file hdir] at he
      cases he
  · by_cases hmp : m = p
    · subst hmp
      rcases List.mem_cons.1 (h.entry.subset he) with rfl | he
      · exact .inr (.inl ⟨rfl, rfl⟩)
      · exact .inl ⟨he, hmn⟩
    · rw [h.others m hmp hmn] at he
      exact .inl ⟨he, hmn⟩

/-- Every entry of before is still there. -/
theorem Gains.mem (h : Gains tree tree' p e) (hnew : NewEntry tree isDir p e)
    (hnames : NameTree tree isDir parent) {e' : Entry} (he : e' ∈ tree m) : e' ∈ tree' m := by
  by_cases hmp : m = p
  · subst hmp
    exact h.entry.symm.subset (List.mem_cons_of_mem _ he)
  · have hmn : m ≠ e.iNo := by
      rintro rfl
      exact hnew.notDir (hnames.isDir_of_mem he)
    rw [h.others m hmp hmn]
    exact he

/-- Names are not used twice. -/
theorem Gains.unique (h : Gains tree tree' p e) (hnew : NewEntry tree isDir p e)
    (hnames : NameTree tree isDir parent) {e₁ e₂ : Entry} (he₁ : e₁ ∈ tree' m) (he₂ : e₂ ∈ tree' m)
    (hname : e₁.name = e₂.name) : e₁ = e₂ := by
  have hne := hnew.ne
  rcases h.mem_cases hne he₁ with ⟨hold₁, hm⟩ | ⟨rfl, rfl⟩ | ⟨rfl, hdir, -⟩
  · rcases h.mem_cases hne he₂ with ⟨hold₂, -⟩ | ⟨rfl, rfl⟩ | ⟨rfl, -⟩
    · exact hnames.shape.unique m e₁ hold₁ e₂ hold₂ hname
    · exact absurd hname (hnew.newName e₁ hold₁)
    · exact absurd rfl hm
  · rcases h.mem_cases hne he₂ with ⟨hold₂, -⟩ | ⟨-, rfl⟩ | ⟨heq, -⟩
    · exact absurd hname.symm (hnew.newName e₂ hold₂)
    · rfl
    · exact absurd heq hne
  · obtain ⟨d₁, d₂, heq, ⟨hdot, -⟩, ⟨hdotDot, -⟩, -⟩ := h.directory hdir
    rw [heq] at he₁ he₂
    simp only [List.mem_cons, List.not_mem_nil, or_false] at he₁ he₂
    have hdots : d₁.name ≠ d₂.name := by
      rw [hdot, hdotDot]
      decide
    rcases he₁ with rfl | rfl <;> rcases he₂ with rfl | rfl
    · rfl
    · exact absurd hname hdots
    · exact absurd hname.symm hdots
    · rfl

/-- The tree stays whole; the new object stands in `p`. -/
theorem NameTree.gains (hnames : NameTree tree isDir parent) (hnew : NewEntry tree isDir p e)
    (h : Gains tree tree' p e) :
    NameTree tree' (dirsWith isDir e) (Function.update parent e.iNo p) := by
  have hne := hnew.ne
  have hplain := hnew.plain hnames
  have hshape := hnames.shape
  have hself : Function.update parent e.iNo p e.iNo = p := Function.update_self ..
  have hother : ∀ {m}, m ≠ e.iNo → Function.update parent e.iNo p m = parent m :=
    fun hm => Function.update_of_ne hm _ _
  have hn0 : e.iNo ≠ 0 := fun hzero => hnew.notDir (hzero ▸ hnames.root)
  constructor
  case shape =>
    constructor
    case isName =>
      intro m e' he
      rcases h.mem_cases hne he with ⟨he, -⟩ | ⟨-, rfl⟩ | ⟨-, -, -, ⟨hname, -⟩ | ⟨hname, -⟩⟩
      · exact hshape.isName m e' he
      · exact hnew.isName
      · rw [hname]
        exact ⟨⟨by decide, by decide, by decide⟩, by decide⟩
      · rw [hname]
        exact ⟨⟨by decide, by decide, by decide⟩, by decide⟩
    case unique => exact fun m e₁ he₁ e₂ he₂ => h.unique hnew hnames he₁ he₂
    case dot =>
      intro m e' he hdot
      rcases h.mem_cases hne he with ⟨he, -⟩ | ⟨-, rfl⟩ | ⟨-, -, -, ⟨-, hno⟩ | ⟨hname, -⟩⟩
      · exact hshape.dot m e' he hdot
      · exact absurd hdot hplain.1
      · exact hno
      · exact absurd (hname.symm.trans hdot) (by decide)
    case dotDot =>
      intro m e' he hdotDot
      rcases h.mem_cases hne he with ⟨he, hm⟩ | ⟨-, rfl⟩ | ⟨rfl, -, -, ⟨hname, -⟩ | ⟨-, hno⟩⟩
      · rw [hother hm]
        exact hshape.dotDot m e' he hdotDot
      · exact absurd hdotDot hplain.2
      · exact absurd (hname.symm.trans hdotDot) (by decide)
      · rw [hself, hno]
    case rootParent =>
      rw [hother hn0.symm]
      exact hshape.rootParent
    case child =>
      intro m e' he hdir hdot hdotDot
      rcases h.mem_cases hne he with ⟨he, -⟩ | ⟨rfl, rfl⟩ | ⟨-, -, -, ⟨hname, -⟩ | ⟨hname, -⟩⟩
      · rw [hother (hnew.newNo m e' he)]
        exact hshape.child m e' he hdir hdot hdotDot
      · exact ⟨hn0, hself⟩
      · exact absurd hname hdot
      · exact absurd hname hdotDot
    case oneName =>
      intro m e₁ he₁ e₂ he₂ hdot₁ hdotDot₁ hdot₂ hdotDot₂ hno
      rcases h.mem_cases hne he₁ with ⟨he₁, hm⟩ | ⟨rfl, rfl⟩ | ⟨-, -, -, ⟨hname, -⟩ | ⟨hname, -⟩⟩
      · rcases h.mem_cases hne he₂ with ⟨he₂, -⟩ | ⟨-, rfl⟩ | ⟨rfl, -⟩
        · exact hshape.oneName m e₁ he₁ e₂ he₂ hdot₁ hdotDot₁ hdot₂ hdotDot₂ hno
        · exact absurd hno (hnew.newNo m e₁ he₁)
        · exact absurd rfl hm
      · rcases h.mem_cases hne he₂ with ⟨he₂, -⟩ | ⟨-, rfl⟩ | ⟨heq, -⟩
        · exact absurd hno.symm (hnew.newNo m e₂ he₂)
        · rfl
        · exact absurd heq hne
      · exact absurd hname hdot₁
      · exact absurd hname hdotDot₁
  case root => exact .inl hnames.root
  case nodup =>
    intro m
    by_cases hmn : m = e.iNo
    · subst hmn
      by_cases hdir : e.fType = FileType.directory.toWord
      · obtain ⟨d₁, d₂, heq, ⟨hdot, -⟩, ⟨hdotDot, -⟩, -⟩ := h.directory hdir
        have hdots : d₁ ≠ d₂ := by
          rintro rfl
          exact absurd (hdot.symm.trans hdotDot) (by decide)
        rw [heq]
        simp [hdots]
      · rw [h.file hdir]
        exact List.nodup_nil
    · by_cases hmp : m = p
      · subst hmp
        rw [h.entry.nodup_iff, List.nodup_cons]
        exact ⟨fun he => hnew.newName e he rfl, hnames.nodup m⟩
      · rw [h.others m hmp hmn]
        exact hnames.nodup m
  case only =>
    intro m hno
    have hold : ¬ isDir m := fun hm => hno (.inl hm)
    by_cases hmn : m = e.iNo
    · subst hmn
      exact h.file fun hdir => hno (.inr ⟨rfl, hdir⟩)
    · have hmp : m ≠ p := by
        rintro rfl
        exact hold hnew.inDir
      rw [h.others m hmp hmn]
      exact hnames.only m hold
  case directory =>
    intro m e' he
    unfold dirsWith
    rcases h.mem_cases hne he with ⟨he, -⟩ | ⟨-, rfl⟩ | ⟨rfl, hdir, htype, ⟨-, hno⟩ | ⟨-, hno⟩⟩
    · rw [hnames.directory m e' he]
      exact ⟨.inl, fun hor => hor.resolve_right fun hor => hnew.newNo m e' he hor.1⟩
    · exact ⟨fun hdir => .inr ⟨rfl, hdir⟩, fun hor => (hor.resolve_left hnew.notDir).2⟩
    · exact iff_of_true htype (.inr ⟨hno, hdir⟩)
    · exact iff_of_true htype (.inl (hno ▸ hnew.inDir))
  case dots =>
    rintro m (hm | ⟨rfl, hdir⟩) name hname
    · obtain ⟨e', he, heq⟩ := hnames.dots m hm name hname
      exact ⟨e', h.mem hnew hnames he, heq⟩
    · obtain ⟨d₁, d₂, heq, ⟨hdot, -⟩, ⟨hdotDot, -⟩, -⟩ := h.directory hdir
      rw [heq]
      rcases hname with rfl | rfl
      · exact ⟨d₁, List.mem_cons_self, hdot⟩
      · exact ⟨d₂, List.mem_cons_of_mem _ List.mem_cons_self, hdotDot⟩
  case linked =>
    rintro m hm0 (hm | ⟨rfl, -⟩)
    · obtain ⟨e', he, hplain', hno⟩ := hnames.linked m hm0 hm
      have hmn : m ≠ e.iNo := by
        rintro rfl
        exact hnew.notDir hm
      rw [hother hmn]
      exact ⟨e', h.mem hnew hnames he, hplain', hno⟩
    · rw [hself]
      exact ⟨e, h.entry.symm.subset List.mem_cons_self, hplain, rfl⟩
  case home =>
    intro m e' he hplain'
    rcases h.mem_cases hne he with ⟨he, -⟩ | ⟨rfl, rfl⟩ | ⟨-, -, -, ⟨hname, -⟩ | ⟨hname, -⟩⟩
    · rw [hother (hnew.newNo m e' he)]
      exact hnames.home m e' he hplain'
    · exact hself
    · exact absurd hname hplain'.1
    · exact absurd hname hplain'.2

/-! ## Paths -/

/-- The last name of a path was looked up in the directory that is given. -/
theorem reach_last {f g : Found} {names : List (List UInt8)} (hdir : f.fType = .directory)
    (hnames : names ≠ []) (h : reach tree f names = some g) :
    ∃ name e, lookup (tree g.parent) name = some e ∧ e.found g.parent = g := by
  induction names generalizing f with
  | nil => exact absurd rfl hnames
  | cons name names ih =>
      obtain ⟨k, hk, h⟩ := Option.bind_eq_some_iff.1 h
      have hfound : ∃ name e, lookup (tree k.parent) name = some e ∧ e.found k.parent = k := by
        rw [nextFound, if_pos hdir] at hk
        obtain ⟨e, he, rfl⟩ := Option.map_eq_some_iff.1 hk
        exact ⟨name, e, he, rfl⟩
      split at h
      · by_cases hnil : names = []
        · subst hnil
          cases h
          exact hfound
        · exact ih ‹_› hnil h
      · cases h
        exact hfound

theorem reach_entry {g : Found} {names : List (List UInt8)}
    (h : reach tree rootFound names = some g) :
    g = rootFound ∨ ∃ e ∈ tree g.parent, e.found g.parent = g := by
  by_cases hnil : names = []
  · subst hnil
    cases h
    exact .inl rfl
  · obtain ⟨name, e, he, hfound⟩ := reach_last rfl hnil h
    exact .inr ⟨e, List.mem_of_find?_eq_some he, hfound⟩

/-- Behind a directory the path goes on. -/
theorem reach_front {f g : Found} {front rest : List (List UInt8)} (hdir : g.fType = .directory)
    (h : reach tree f front = some g) : reach tree f (front ++ rest) = reach tree g rest := by
  induction front generalizing f with
  | nil =>
      cases h
      rfl
  | cons name front ih =>
      obtain ⟨k, hk, h⟩ := Option.bind_eq_some_iff.1 h
      rw [List.cons_append, reach, hk, Option.bind_some]
      split at h
      · rw [if_pos ‹_›]
        exact ih h
      · cases h
        exact absurd hdir ‹_›

/-- One name in a directory. -/
theorem reach_name {g : Found} {name : List UInt8} (hdir : g.fType = .directory) :
    reach tree g [name] = (lookup (tree g.iNo) name).map (Entry.found g.iNo) := by
  rw [reach, nextFound, if_pos hdir]
  cases lookup (tree g.iNo) name with
  | none => rfl
  | some e =>
      rw [Option.map_some, Option.bind_some]
      split <;> rfl

/-- A directory that a path leads to is one of the tree, and a file is none. -/
theorem NameTree.reach_kind (h : NameTree tree isDir parent) {g : Found}
    {names : List (List UInt8)} (hreach : reach tree rootFound names = some g) :
    g.fType = .directory ∧ isDir g.iNo ∨ g.fType = .regular ∧ ¬ isDir g.iNo := by
  rcases reach_entry hreach with rfl | ⟨e, he, hfound⟩
  · exact .inl ⟨rfl, h.root⟩
  · have hno : g.iNo = e.iNo := by
      rw [← hfound]
      rfl
    have htype := h.directory g.parent e he
    rw [hno, ← hfound]
    by_cases hdir : e.fType = FileType.directory.toWord
    · exact .inl ⟨if_pos hdir, htype.1 hdir⟩
    · exact .inr ⟨if_neg hdir, fun hisDir => hdir (htype.2 hisDir)⟩

/-- Paths that led somewhere lead there still. -/
theorem Gains.reach (h : Gains tree tree' p e) (hnew : NewEntry tree isDir p e)
    (hnames : NameTree tree isDir parent) {f g : Found} {names : List (List UInt8)}
    (hreach : Fs.reach tree f names = some g) : Fs.reach tree' f names = some g := by
  induction names generalizing f with
  | nil => exact hreach
  | cons name names ih =>
      obtain ⟨k, hk, hreach⟩ := Option.bind_eq_some_iff.1 hreach
      have hk' : nextFound tree' f name = some k := by
        unfold nextFound at hk ⊢
        split at hk
        · rw [if_pos ‹_›]
          obtain ⟨e', he', rfl⟩ := Option.map_eq_some_iff.1 hk
          have hname := List.find?_some he'
          rw [decide_eq_true_eq] at hname
          have hmem := h.mem hnew hnames (List.mem_of_find?_eq_some he')
          rw [← hname, (hnames.gains hnew h).lookup_name hmem]
          rfl
        · cases hk
      rw [Fs.reach, hk', Option.bind_some]
      split at hreach
      · rw [if_pos ‹_›]
        exact ih hreach
      · rw [if_neg ‹_›]
        exact hreach

/-- The new name leads to the new object. -/
theorem Gains.reach_new (h : Gains tree tree' p e) (hnew : NewEntry tree isDir p e)
    (hnames : NameTree tree isDir parent) {f g : Found} {front : List (List UInt8)}
    (hreach : Fs.reach tree f front = some g) (hdir : g.fType = .directory) (hno : g.iNo = p) :
    Fs.reach tree' f (front ++ [e.name]) = some (e.found p) := by
  have hmem := h.entry.symm.subset List.mem_cons_self
  rw [reach_front hdir (h.reach hnew hnames hreach), reach_name hdir, hno,
    (hnames.gains hnew h).lookup_name hmem]
  rfl

theorem NameTree.emptyDir_of_file (h : NameTree tree isDir parent) (hn : ¬ isDir n) :
    EmptyDir tree n := by
  rw [EmptyDir, h.only n hn]
  exact fun e he => absurd he List.not_mem_nil

/-- No path leads to what was removed. -/
theorem Loses.unreachable (h : Loses tree tree' p n) (hnames : NameTree tree isDir parent)
    (hempty : EmptyDir tree n) {g : Found} {names : List (List UInt8)}
    (hreach : reach tree' rootFound names = some g) : g.iNo ≠ n := by
  rcases reach_entry hreach with rfl | ⟨e, he, hfound⟩
  · exact ((hnames.loses hempty h).root).2
  · rw [← hfound]
    exact h.iNo_ne hnames hempty he

/-- What a path leads to has a plain entry in the directory where its last name
    was looked up, unless it is a directory on the way there. -/
theorem NameTree.reach_plain (h : NameTree tree isDir parent) (hempty : EmptyDir tree n) {g : Found}
    {names : List (List UInt8)} (hreach : reach tree rootFound names = some g) (hg : g.iNo = n)
    (hne : g.parent ≠ n) : ∃ e ∈ tree g.parent, e.Plain ∧ e.iNo = n := by
  rcases reach_entry hreach with rfl | ⟨e, he, hfound⟩
  · exact absurd hg hne
  · have hno : e.iNo = n := by
      rw [← hg, ← hfound]
      rfl
    exact ⟨e, he, ((h.leads hempty he hno).resolve_left hne).2, hno⟩

/-- A search that ends at a directory went the whole way. -/
theorem reach_iff_walk {f g : Found} {names : List (List UInt8)} (hf : f.fType = .directory)
    (hg : g.fType = .directory) :
    reach tree f names = some g ↔ walk tree f names = some g := by
  induction names generalizing f with
  | nil => exact Iff.rfl
  | cons name names ih =>
      rw [reach, walk_cons, Option.bind_eq_some_iff, Option.bind_eq_some_iff]
      refine exists_congr fun c => and_congr_right fun hc => ?_
      by_cases hdir : c.fType = .directory
      · rw [if_pos hdir]
        exact ih hdir
      · rw [if_neg hdir]
        have hreg : c.fType = .regular := by
          rw [nextFound, if_pos hf] at hc
          obtain ⟨e, -, rfl⟩ := Option.map_eq_some_iff.1 hc
          exact (e.found_type f.iNo).resolve_left hdir
        refine iff_of_false (fun h => ?_) fun h => ?_
        · obtain rfl := Option.some.inj h
          exact hdir hg
        · by_cases hnil : names = []
          · subst hnil
            obtain rfl := Option.some.inj h
            exact hdir hg
          · rw [walk_regular hreg hnil] at h
            cases h

/-- The last name was looked up in the directory that is given. -/
theorem walk_last {f g : Found} {front : List (List UInt8)} {name : List UInt8}
    (h : walk tree f (front ++ [name]) = some g) :
    ∃ e ∈ tree g.parent, e.name = name ∧ e.found g.parent = g := by
  rw [walk_append] at h
  obtain ⟨c, -, h⟩ := Option.bind_eq_some_iff.1 h
  rw [walk_cons] at h
  obtain ⟨c', hc, h⟩ := Option.bind_eq_some_iff.1 h
  obtain rfl := Option.some.inj h
  unfold nextFound at hc
  split at hc
  · obtain ⟨e, he, rfl⟩ := Option.map_eq_some_iff.1 hc
    have hname := List.find?_some he
    rw [decide_eq_true_eq] at hname
    exact ⟨e, List.mem_of_find?_eq_some he, hname, rfl⟩
  · cases hc

/-- The last name of a path to an empty directory is "." if and only if it was
    looked up in the directory itself. -/
theorem NameTree.last_dot_iff (h : NameTree tree isDir parent) {f g : Found}
    {names : List (List UInt8)} (hempty : EmptyDir tree g.iNo) (hg0 : g.iNo ≠ 0)
    (hnames : names ≠ []) (hwalk : walk tree f names = some g) :
    names.getLast? = some dot ↔ g.parent = g.iNo := by
  rw [List.getLast?_eq_some_getLast hnames, Option.some_inj]
  rw [← List.dropLast_append_getLast hnames] at hwalk
  obtain ⟨e, he, hname, hfound⟩ := walk_last hwalk
  have hno : e.iNo = g.iNo := by
    rw [← hfound]
    rfl
  constructor
  · intro hdot
    exact (h.shape.dot g.parent e he (hname.trans hdot)).symm.trans hno
  · intro hself
    rw [hself] at he
    rw [← hname]
    by_contra hdot
    by_cases hdotDot : e.name = dotDot
    · -- the directory would stand in itself
      have hparent := (h.shape.dotDot g.iNo e he hdotDot).symm.trans hno
      obtain ⟨e', he', hplain, -⟩ := h.linked g.iNo hg0 (h.isDir_of_mem he)
      rw [hparent] at he'
      exact hempty e' he' hplain
    · exact hempty e he ⟨hdot, hdotDot⟩

end Fs
end JackOS
