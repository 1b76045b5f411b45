/-
  JackOS.Shell.WashPath

  `wash_path` of shell/builtin_cmd.c.  The names of the path go onto a stack,
  which is kept as a string: a name is appended behind a slash, and ".." cuts
  the string off at its last slash.  `Shows` ties the string to the stack; the
  loop keeps it while it takes one name after the other.
-/

import JackOS.Fs.PathParse

namespace JackOS
namespace Shell

open Base Fs

/-! ## The code -/

/-- `if (!strcmp("..", name))` -/
def washUp (newAbsPath : Buf) : Outcome Buf := do
  let slashPtr ← strrchr newAbsPath slash
  match slashPtr with
  | none => .error .undefined
  | some slashPtr =>
      if slashPtr ≠ 0 then newAbsPath.store slashPtr 0 else newAbsPath.store (slashPtr + 1) 0

/-- `if (strcmp(new_abs_path, "/")) strcat(new_abs_path, "/");` -/
def addSlash (newAbsPath : Buf) : Outcome Buf := do
  let r ← strcmp newAbsPath [slash, 0]
  if r ≠ 0 then strcat newAbsPath [slash, 0] else .ok newAbsPath

/-- `else if (strcmp(".", name))` -/
def washDown (newAbsPath name : Buf) : Outcome Buf := do
  let r ← strcmp (dot ++ [0]) name
  if r ≠ 0 then do
    let newAbsPath ← addSlash newAbsPath
    strcat newAbsPath name
  else .ok newAbsPath

/-- What the loop does with one name. -/
def washName (newAbsPath name : Buf) : Outcome Buf := do
  let r ← strcmp (dotDot ++ [0]) name
  if r = 0 then washUp newAbsPath else washDown newAbsPath name

/-- `while (name[0])`, at most `fuel` rounds. -/
def washLoop : (fuel : Nat) → (subPath : Option Buf) → (name newAbsPath : Buf) → Outcome Buf
  | fuel, subPath, name, newAbsPath => do
      let c ← name.load 0
      if c = 0 then .ok newAbsPath
      else
        match fuel with
        | 0 => .error .diverges
        | fuel + 1 => do
            let newAbsPath ← washName newAbsPath name
            let name ← memset name 0 0 maxFileNameLen
            let (subPath, name) ← parseNextBytes subPath name
            washLoop fuel subPath name newAbsPath

/-- `wash_path` -/
def washPath (oldAbsPath newAbsPath : Buf) : Outcome Buf := do
  let c ← oldAbsPath.load 0
  require (c = slash)
  let (subPath, name) ← pathParseBytes oldAbsPath (List.replicate maxFileNameLen 0)
  let c ← name.load 0
  if c = 0 then do
    let newAbsPath ← newAbsPath.store 0 slash
    newAbsPath.store 1 0
  else do
    let newAbsPath ← newAbsPath.store 0 0
    let newAbsPath ← strcat newAbsPath [slash, 0]
    washLoop oldAbsPath.length subPath name newAbsPath

/-! ## Lexical normalisation -/

/-- What a component of a path does to the stack of names. -/
def pushName (stack : List (List UInt8)) (name : List UInt8) : List (List UInt8) :=
  if name = [] ∨ name = dot then stack
  else if name = dotDot then stack.dropLast
  else stack ++ [name]

/-- The stack when the components were taken from left to right. -/
def nameStack (path : List UInt8) : List (List UInt8) :=
  (path.splitOn slash).foldl pushName []

/-- The path with the names of the stack. -/
def stackPath (stack : List (List UInt8)) : List UInt8 := slash :: [slash].intercalate stack

variable {stack : List (List UInt8)} {w : List UInt8} {b name : Buf}

/-- Empty components do nothing. -/
theorem foldl_pushName_filter (names : List (List UInt8)) :
    names.foldl pushName stack = (names.filter (· ≠ [])).foldl pushName stack := by
  induction names generalizing stack with
  | nil => rfl
  | cons w names ih =>
      by_cases hw : w = []
      · rw [List.filter_cons_of_neg (by simpa using hw), List.foldl_cons, pushName,
          if_pos (.inl hw), ih]
      · rw [List.filter_cons_of_pos (by simpa using hw), List.foldl_cons, List.foldl_cons, ih]

theorem nameStack_eq (path : List UInt8) : nameStack path = (words slash path).foldl pushName [] :=
  foldl_pushName_filter _

/-- A name that can be on the stack. -/
def IsPlainName (w : List UInt8) : Prop := w ≠ [] ∧ w ≠ dot ∧ w ≠ dotDot ∧ slash ∉ w

theorem pushName_plain (hstack : ∀ v ∈ stack, IsPlainName v) (hw : slash ∉ w) :
    ∀ v ∈ pushName stack w, IsPlainName v := by
  unfold pushName
  intro v hv
  split at hv
  · exact hstack v hv
  · rename_i hne
    rw [not_or] at hne
    split at hv
    · exact hstack v (List.mem_of_mem_dropLast hv)
    · rename_i hdots
      rcases List.mem_append.1 hv with hv | hv
      · exact hstack v hv
      · rw [List.mem_singleton.1 hv]
        exact ⟨hne.1, hne.2, hdots, hw⟩

theorem foldl_pushName_plain {names : List (List UInt8)} (hstack : ∀ v ∈ stack, IsPlainName v)
    (hnames : ∀ w ∈ names, slash ∉ w) : ∀ v ∈ names.foldl pushName stack, IsPlainName v := by
  induction names generalizing stack with
  | nil => exact hstack
  | cons w names ih =>
      exact ih (pushName_plain hstack (hnames w List.mem_cons_self))
        fun v hv => hnames v (List.mem_cons_of_mem _ hv)

/-- Plain names are pushed one after the other. -/
theorem foldl_pushName_of_plain {names : List (List UInt8)} (h : ∀ w ∈ names, IsPlainName w) :
    names.foldl pushName stack = stack ++ names := by
  induction names generalizing stack with
  | nil => exact (List.append_nil _).symm
  | cons w names ih =>
      obtain ⟨hne, hdot, hdots, -⟩ := h w List.mem_cons_self
      rw [List.foldl_cons, pushName, if_neg (by rw [not_or]; exact ⟨hne, hdot⟩), if_neg hdots,
        ih fun v hv => h v (List.mem_cons_of_mem _ hv), List.append_assoc]
      rfl

/-- No name is longer for having been pushed. -/
theorem length_pushName_le (stack : List (List UInt8)) (w : List UInt8) :
    (joinAll slash (pushName stack w)).length ≤ (joinAll slash (stack ++ [w])).length := by
  apply length_joinAll_le_of_sublist
  unfold pushName
  split
  · exact List.sublist_append_left _ _
  · split
    · exact (List.dropLast_sublist _).trans (List.sublist_append_left _ _)
    · exact List.Sublist.refl _

/-! ## The string of a stack -/

theorem stackPath_nil : stackPath [] = [slash] := rfl

theorem stackPath_of_ne_nil (h : stack ≠ []) : stackPath stack = joinAll slash stack := by
  cases stack with
  | nil => exact absurd rfl h
  | cons w stack =>
      clear h
      rw [stackPath]
      induction stack generalizing w with
      | nil => simp
      | cons v stack ih =>
          rw [List.intercalate_cons_cons, joinAll_cons, ← ih v]
          simp

/-- The array holds the string of the stack. -/
def Shows (b : Buf) (stack : List (List UInt8)) : Prop := CString b (stackPath stack)

theorem cstring_slash : CString [slash, 0] [slash] := ⟨[], rfl, by decide⟩

/-- A stack with names on it has another string than "/". -/
theorem stackPath_eq_slash (hstack : ∀ v ∈ stack, IsPlainName v) :
    stackPath stack = [slash] ↔ stack = [] := by
  constructor
  · intro h
    by_contra hne
    obtain ⟨w, stack', rfl⟩ := List.exists_cons_of_ne_nil hne
    rw [stackPath_of_ne_nil hne, joinAll_cons] at h
    have hlen := congrArg List.length h
    have hw := List.length_pos_iff.2 (hstack w List.mem_cons_self).1
    simp only [List.length_cons, List.length_append, List.length_nil] at hlen
    omega
  · rintro rfl
    exact stackPath_nil

/-- ".." takes the last name off. -/
theorem washUp_shows (h : Shows b stack) (hstack : ∀ v ∈ stack, IsPlainName v) :
    ∃ b', washUp b = .ok b' ∧ Shows b' stack.dropLast ∧ b'.length = b.length := by
  rcases List.eq_nil_or_concat stack with rfl | ⟨stack', w, rfl⟩
  · -- at the root the string is cut off behind its slash, where it ends
    have hlast : strrchr b slash = .ok (some 0) :=
      CString.strrchr (s := []) (t := []) h List.not_mem_nil
    obtain ⟨rest, rfl, -⟩ := h
    refine ⟨[slash] ++ 0 :: rest, ?_, ⟨rest, rfl, by decide⟩, rfl⟩
    rw [washUp, hlast]
    exact Buf.store_append [slash] 0 0 rest
  · obtain ⟨hne, -, -, hslash⟩ := hstack w (by simp)
    rw [Shows, stackPath_of_ne_nil (by simp), List.concat_eq_append, joinAll_append, joinAll_cons,
      joinAll_nil, List.append_nil] at h
    have hlast := h.strrchr hslash
    rw [List.concat_eq_append, List.dropLast_concat]
    by_cases hroot : stack' = []
    · subst hroot
      obtain ⟨c, w', rfl⟩ := List.exists_cons_of_ne_nil hne
      obtain ⟨b', hrun, hstr, hlen⟩ := CString.store_zero (s := [slash]) h
      refine ⟨b', ?_, hstr, hlen⟩
      rw [washUp, hlast]
      exact hrun
    · obtain ⟨b', hrun, hstr, hlen⟩ := h.store_zero
      refine ⟨b', ?_, ?_, hlen⟩
      · have hpos : (joinAll slash stack').length ≠ 0 := by
          obtain ⟨v, stack'', rfl⟩ := List.exists_cons_of_ne_nil hroot
          simp
        rw [washUp, hlast]
        simp only [Outcome.ok_bind, if_pos hpos]
        exact hrun
      · rw [Shows, stackPath_of_ne_nil hroot]
        exact hstr

/-- A name goes behind the last one. -/
theorem washDown_shows (h : Shows b stack) (hstack : ∀ v ∈ stack, IsPlainName v)
    (hname : CString name w) (hroom : (joinAll slash (stack ++ [w])).length < b.length) :
    ∃ b', washDown b name = .ok b' ∧ Shows b' (if w = dot then stack else stack ++ [w])
      ∧ b'.length = b.length := by
  obtain ⟨r, hdot, hr⟩ := CString.strcmp (a := dot ++ [0]) (s := dot) ⟨[], rfl, by decide⟩ hname
  by_cases hw : w = dot
  · rw [if_pos hw]
    refine ⟨b, ?_, h, rfl⟩
    rw [washDown, hdot]
    exact if_neg (not_not.2 (hr.2 hw.symm))
  · rw [if_neg hw]
    have hr0 : r ≠ 0 := fun heq => hw (hr.1 heq).symm
    obtain ⟨r', hcmp, hr'⟩ := CString.strcmp h cstring_slash
    rw [stackPath_eq_slash hstack] at hr'
    rw [joinAll_append, List.length_append, joinAll_cons, joinAll_nil] at hroom
    simp only [List.length_append, List.length_cons, List.length_nil] at hroom
    -- the string ends in a slash before the name goes behind it
    obtain ⟨b₁, hadd, hstr, hlen⟩ : ∃ b₁, addSlash b = .ok b₁
        ∧ CString b₁ (joinAll slash stack ++ [slash]) ∧ b₁.length = b.length := by
      by_cases hroot : stack = []
      · refine ⟨b, ?_, ?_, rfl⟩
        · rw [addSlash, hcmp]
          exact if_neg (not_not.2 (hr'.2 hroot))
        · rw [Shows, hroot] at h
          rw [hroot]
          exact h
      · rw [Shows, stackPath_of_ne_nil hroot] at h
        obtain ⟨b₁, hcat, hstr, hlen⟩ := h.strcat cstring_slash (by
          simp only [List.length_cons, List.length_nil]
          omega)
        refine ⟨b₁, ?_, hstr, hlen⟩
        rw [addSlash, hcmp]
        simp only [Outcome.ok_bind, if_pos (mt hr'.1 hroot)]
        exact hcat
    obtain ⟨b', hcat, hstr', hlen'⟩ := hstr.strcat hname (by
      simp only [List.length_append, List.length_cons, List.length_nil]
      omega)
    refine ⟨b', ?_, ?_, hlen'.trans hlen⟩
    · rw [washDown, hdot]
      simp only [Outcome.ok_bind, if_pos hr0, hadd]
      exact hcat
    · rw [Shows, stackPath_of_ne_nil (by simp), joinAll_append, joinAll_cons, joinAll_nil]
      simpa using hstr'

/-- One name is taken. -/
theorem washName_shows (h : Shows b stack) (hstack : ∀ v ∈ stack, IsPlainName v)
    (hname : CString name w) (hw : w ≠ [])
    (hroom : (joinAll slash (stack ++ [w])).length < b.length) :
    ∃ b', washName b name = .ok b' ∧ Shows b' (pushName stack w) ∧ b'.length = b.length := by
  obtain ⟨r, hcmp, hr⟩ := CString.strcmp (a := dotDot ++ [0]) (s := dotDot)
    ⟨[], rfl, by decide⟩ hname
  by_cases hdots : w = dotDot
  · obtain ⟨b', hrun, hshow, hlen⟩ := washUp_shows h hstack
    refine ⟨b', ?_, ?_, hlen⟩
    · rw [washName, hcmp]
      simp only [Outcome.ok_bind, if_pos (hr.2 hdots.symm)]
      exact hrun
    · rw [pushName, hdots, if_neg (by decide), if_pos rfl]
      exact hshow
  · obtain ⟨b', hrun, hshow, hlen⟩ := washDown_shows h hstack hname hroom
    refine ⟨b', ?_, ?_, hlen⟩
    · rw [washName, hcmp]
      have hr0 : r ≠ 0 := fun heq => hdots (hr.1 heq).symm
      simp only [Outcome.ok_bind, if_neg hr0]
      exact hrun
    · rw [pushName, if_neg hdots]
      simpa [hw] using hshow

/-! ## The loop -/

/-- The loop works the names off; the string has room for them all. -/
theorem washLoop_shows {names : List (List UInt8)} {sub : Option Buf} (fuel : Nat)
    (hparsed : ParsedTo sub name names) (h : Shows b stack)
    (hstack : ∀ v ∈ stack, IsPlainName v)
    (hnames : ∀ v ∈ names, v ≠ [] ∧ slash ∉ v ∧ v.length < maxFileNameLen)
    (hroom : (joinAll slash (stack ++ names)).length < b.length) (hfuel : names.length ≤ fuel) :
    ∃ b', washLoop fuel sub name b = .ok b' ∧ Shows b' (names.foldl pushName stack)
      ∧ b'.length = b.length := by
  induction names generalizing sub name b stack fuel with
  | nil =>
      obtain ⟨c, hload, hc⟩ := hparsed.string.load_zero
      refine ⟨b, ?_, h, rfl⟩
      unfold washLoop
      rw [hload]
      exact if_pos (hc.2 rfl)
  | cons w names ih =>
      obtain ⟨c, hload, hc⟩ := hparsed.string.load_zero
      obtain ⟨hw, hslash, -⟩ := hnames w List.mem_cons_self
      have htail := fun v hv => hnames v (List.mem_cons_of_mem w hv)
      cases fuel with
      | zero => cases hfuel
      | succ fuel =>
          have hfits : (joinAll slash (stack ++ [w])).length < b.length := by
            rw [List.append_cons, joinAll_append, List.length_append] at hroom
            omega
          obtain ⟨b₁, hrun, hshow, hlen⟩ := washName_shows h hstack hparsed.string hw hfits
          obtain ⟨sub', name', hnext, hparsed'⟩ := hparsed.next fun v hv => (htail v hv).2.2
          have hroom₁ : (joinAll slash (pushName stack w ++ names)).length < b₁.length := by
            have hle := length_pushName_le stack w
            rw [List.append_cons, joinAll_append, List.length_append] at hroom
            rw [joinAll_append, List.length_append]
            omega
          obtain ⟨b', hloop, hshow', hlen'⟩ := ih fuel hparsed' hshow (pushName_plain hstack hslash)
            htail hroom₁ (Nat.le_of_succ_le_succ hfuel)
          refine ⟨b', ?_, hshow', hlen'.trans hlen⟩
          have hzero := memset_all name 0
          rw [hparsed.length] at hzero
          rw [washLoop, hload]
          simp only [Outcome.ok_bind, if_neg (mt hc.1 hw), hrun, hzero, hnext]
          exact hloop

/-! ## The result -/

theorem length_joinAll_le_of_head {path : List UInt8} (habs : path.head? = some slash) :
    (joinAll slash (words slash path)).length ≤ path.length := by
  cases path with
  | nil => cases habs
  | cons c path =>
      cases habs
      rw [words_sep_cons]
      exact length_joinAll_words slash path

theorem length_words_le (path : List UInt8) : (words slash path).length ≤ path.length + 1 := by
  have hjoin := length_joinAll_words slash path
  refine Nat.le_trans ?_ hjoin
  generalize words slash path = ws
  induction ws with
  | nil => exact Nat.zero_le _
  | cons w ws ih =>
      rw [joinAll_cons, List.length_append, List.length_cons, List.length_cons]
      omega

/-- `wash_path` writes the normal form. -/
theorem washPath_writes {path : List UInt8} {old new : Buf} (hold : CString old path)
    (habs : path.head? = some slash)
    (hnames : ∀ name ∈ path.splitOn slash, name.length < maxFileNameLen)
    (hlen : path.length < maxPathLen) (hroom : maxPathLen ≤ new.length) :
    ∃ new', washPath old new = .ok new' ∧ CString new' (stackPath (nameStack path))
      ∧ new'.length = new.length := by
  have hshort : ∀ name ∈ words slash path, name.length < maxFileNameLen :=
    fun name hname => hnames name (List.mem_of_mem_filter hname)
  obtain ⟨sub, name, hparse, hparsed⟩ := parsedTo_of_pathParse hold hshort
  obtain ⟨c, hload, hc⟩ := hparsed.string.load_zero
  have hhead : old.load 0 = .ok slash := by
    obtain ⟨rest, rfl, -⟩ := hold
    cases path with
    | nil => cases habs
    | cons a path =>
        cases habs
        rfl
  obtain ⟨x, y, new, rfl⟩ : ∃ x y new₁, new = x :: y :: new₁ := by
    rcases new with _ | ⟨x, _ | ⟨y, new⟩⟩
    · cases hroom
    · exact absurd hroom (by simp)
    · exact ⟨x, y, new, rfl⟩
  rw [nameStack_eq]
  by_cases hnil : words slash path = []
  · refine ⟨slash :: 0 :: new, ?_, ?_, rfl⟩
    · rw [washPath, hhead]
      simp only [Outcome.ok_bind, require_pos, hparse, hload, if_pos (hc.2 (by rw [hnil]; rfl))]
      rfl
    · rw [hnil]
      exact ⟨new, rfl, by decide⟩
  · obtain ⟨w, ws, hws⟩ := List.exists_cons_of_ne_nil hnil
    have hplain : ∀ v ∈ words slash path, v ≠ [] ∧ slash ∉ v ∧ v.length < maxFileNameLen :=
      fun v hv => ⟨(mem_words hv).1, (mem_words hv).2.1, hshort v hv⟩
    have hne : c ≠ 0 := by
      intro h0
      have h0 := hc.1 h0
      rw [hws] at h0
      exact (hplain w (by rw [hws]; exact List.mem_cons_self)).1 h0
    have hfits := length_joinAll_le_of_head habs
    have hfuel : (words slash path).length ≤ old.length := by
      have hle := length_words_le path
      have hlt := hold.length_lt
      omega
    obtain ⟨new', hrun, hshow, hlen'⟩ := washLoop_shows old.length hparsed
      (⟨new, rfl, by decide⟩ : Shows (slash :: 0 :: new) []) (fun _ hv => by cases hv) hplain
      (by
        simp only [List.length_cons, List.nil_append] at hroom ⊢
        omega)
      hfuel
    refine ⟨new', ?_, hshow, hlen'⟩
    rw [washPath, hhead]
    simp only [Outcome.ok_bind, require_pos, hparse, hload, if_neg hne]
    exact hrun

/-- A path in normal form. -/
structure Washed (path : List UInt8) : Prop where
  absolute : path.head? = some slash
  components : path = [slash]
    ∨ ∀ name ∈ path.tail.splitOn slash, name ≠ [] ∧ name ≠ dot ∧ name ≠ dotDot
  trailing : path.getLast? = some slash → path = [slash]

theorem washed_stackPath (hstack : ∀ v ∈ stack, IsPlainName v) : Washed (stackPath stack) := by
  by_cases hroot : stack = []
  · subst hroot
    exact ⟨rfl, .inl rfl, fun _ => rfl⟩
  · have hsplit : (stackPath stack).tail.splitOn slash = stack :=
      List.splitOn_intercalate slash (fun v hv => (hstack v hv).2.2.2) hroot
    refine ⟨rfl, .inr fun name hname => ?_, fun hlast => ?_⟩
    · rw [hsplit] at hname
      obtain ⟨hne, hdot, hdots, -⟩ := hstack name hname
      exact ⟨hne, hdot, hdots⟩
    · -- the last character is one of the last name
      rcases List.eq_nil_or_concat stack with rfl | ⟨stack', w, rfl⟩
      · exact absurd rfl hroot
      · obtain ⟨hne, -, -, hslash⟩ := hstack w (by simp)
        obtain ⟨c, w', rfl⟩ := List.exists_cons_of_ne_nil hne
        rw [stackPath_of_ne_nil hroot, List.concat_eq_append, joinAll_append, joinAll_cons,
          joinAll_nil, List.append_nil, List.getLast?_append_of_ne_nil _ (by simp),
          List.getLast?_cons_cons] at hlast
        exact absurd (List.mem_of_getLast? hlast) hslash

/-- The names of a normal form are those of its stack. -/
theorem words_stackPath (hstack : ∀ v ∈ stack, IsPlainName v) :
    words slash (stackPath stack) = stack := by
  by_cases hroot : stack = []
  · subst hroot
    exact words_eq_nil_of_all fun a ha => List.mem_singleton.1 ha
  · rw [stackPath_of_ne_nil hroot]
    exact words_joinAll fun v hv => ⟨(hstack v hv).1, (hstack v hv).2.2.2⟩

theorem foldl_pushName_sub {names : List (List UInt8)} {v : List UInt8}
    (hv : v ∈ names.foldl pushName stack) : v ∈ stack ∨ v ∈ names := by
  induction names generalizing stack with
  | nil => exact .inl hv
  | cons w names ih =>
      rcases ih hv with hmem | hmem
      · unfold pushName at hmem
        split at hmem
        · exact .inl hmem
        · split at hmem
          · exact .inl (List.mem_of_mem_dropLast hmem)
          · rcases List.mem_append.1 hmem with hmem | hmem
            · exact .inl hmem
            · exact .inr (List.mem_singleton.1 hmem ▸ List.mem_cons_self)
      · exact .inr (List.mem_cons_of_mem _ hmem)

theorem length_foldl_pushName_le (stack names : List (List UInt8)) :
    (joinAll slash (names.foldl pushName stack)).length
      ≤ (joinAll slash (stack ++ names)).length := by
  induction names generalizing stack with
  | nil =>
      rw [List.append_nil]
      exact Nat.le_refl _
  | cons w names ih =>
      have hnext := ih (pushName stack w)
      have hstep := length_pushName_le stack w
      rw [joinAll_append, List.length_append] at hnext
      rw [List.foldl_cons, List.append_cons, joinAll_append, List.length_append]
      omega

/-- Path washing is lexical normalisation. -/
theorem washPath_normalises {path : List UInt8} {old new : Buf} (hold : CString old path)
    (habs : path.head? = some slash)
    (hnames : ∀ name ∈ path.splitOn slash, name.length < maxFileNameLen)
    (hlen : path.length < maxPathLen) (hroom : maxPathLen ≤ new.length) :
    (∃ new', washPath old new = .ok new' ∧ CString new' (stackPath (nameStack path)))
      ∧ Washed (stackPath (nameStack path))
      ∧ ∀ again dst : Buf, CString again (stackPath (nameStack path)) → maxPathLen ≤ dst.length →
        ∃ dst', washPath again dst = .ok dst' ∧ CString dst' (stackPath (nameStack path)) := by
  have hplain : ∀ v ∈ nameStack path, IsPlainName v := by
    rw [nameStack_eq]
    exact foldl_pushName_plain (fun _ hv => by cases hv) fun w hw => (mem_words hw).2.1
  obtain ⟨new', hrun, hstr, -⟩ := washPath_writes hold habs hnames hlen hroom
  refine ⟨⟨new', hrun, hstr⟩, washed_stackPath hplain, fun again dst hagain hdst => ?_⟩
  have hsame : nameStack (stackPath (nameStack path)) = nameStack path := by
    rw [nameStack_eq (stackPath _), words_stackPath hplain, foldl_pushName_of_plain hplain]
    rfl
  have hshort : ∀ name ∈ (stackPath (nameStack path)).splitOn slash,
      name.length < maxFileNameLen := by
    intro name hname
    by_cases hnil : name = []
    · rw [hnil]
      decide
    · have hword : name ∈ words slash (stackPath (nameStack path)) :=
        List.mem_filter.2 ⟨hname, by simpa using hnil⟩
      rw [words_stackPath hplain, nameStack_eq] at hword
      rcases foldl_pushName_sub hword with hmem | hmem
      · cases hmem
      · exact hnames name (List.mem_of_mem_filter hmem)
  have hfits : (stackPath (nameStack path)).length < maxPathLen := by
    by_cases hroot : nameStack path = []
    · rw [hroot]
      decide
    · rw [stackPath_of_ne_nil hroot, nameStack_eq]
      have hle := length_foldl_pushName_le [] (words slash path)
      have hjoin := length_joinAll_le_of_head habs
      rw [List.nil_append] at hle
      omega
  obtain ⟨dst', hrun', hstr', -⟩ := washPath_writes hagain rfl hshort hfits hdst
  rw [hsame] at hstr'
  exact ⟨dst', hrun', hstr'⟩

/-- "/a/../b//." -/
def dotsPath : List UInt8 := [47, 97, 47, 46, 46, 47, 98, 47, 47, 46]

theorem washPath_normalises_dots :
    (∃ new', washPath (dotsPath ++ [0]) (List.replicate maxPathLen 0) = .ok new'
      ∧ CString new' (stackPath (nameStack dotsPath))) ∧ nameStack dotsPath = [[98]] := by
  have hroom : maxPathLen ≤ (List.replicate maxPathLen (0 : UInt8)).length := by
    rw [List.length_replicate]
  exact ⟨(washPath_normalises ⟨[], rfl, by decide⟩ rfl (by decide) (by decide) hroom).1, by decide⟩

end Shell
end JackOS
