/-
  JackOS.Fs.PathParse

  `path_parse` on the bytes of its two arrays, and the names it finds when it
  is called again on what it returned.  Where the name fits into its array the
  bytes are those of `pathParse`; the names of a path are its `words`.
-/

import JackOS.Base.Words
import JackOS.Lib.String
import JackOS.Fs.Path

namespace JackOS
namespace Fs

open Base

/-! ## On bytes -/

/-- `while (*(++pathname) == '/');` -/
def skipSlashes : (pathname : Buf) → Outcome Buf
  | [] => .error .undefined
  | c :: pathname => if c = slash then skipSlashes pathname else .ok (c :: pathname)

/-- `if (pathname[0] == '/')` -/
def skipRoot (pathname : Buf) : Outcome Buf := do
  let c ← pathname.load 0
  if c = slash then skipSlashes (pathname.drop 1) else .ok pathname

/-- `while (*pathname != '/' && *pathname != 0) *name_store++ = *pathname++;`
    with `name_store` at index `k` of its array. -/
def copyName : (pathname : Buf) → (nameStore : Buf) → (k : Nat) → Outcome (Buf × Buf)
  | [], _, _ => .error .undefined
  | c :: pathname, nameStore, k =>
      if c ≠ slash ∧ c ≠ 0 then do
        let nameStore ← nameStore.store k c
        copyName pathname nameStore (k + 1)
      else .ok (c :: pathname, nameStore)

/-- `path_parse` -/
def pathParseBytes (pathname nameStore : Buf) : Outcome (Option Buf × Buf) := do
  let pathname ← skipRoot pathname
  let (pathname, nameStore) ← copyName pathname nameStore 0
  let c ← pathname.load 0
  .ok (if c = 0 then none else some pathname, nameStore)

variable {b name : Buf} {path : List UInt8}

theorem skipSlashes_string (h : CString b path) :
    ∃ b', skipSlashes b = .ok b' ∧ CString b' (path.dropWhile (· == slash)) := by
  induction path generalizing b with
  | nil =>
      obtain ⟨rest, rfl, -⟩ := h
      exact ⟨0 :: rest, rfl, cstring_nil⟩
  | cons c path ih =>
      rcases h.cases with ⟨hnil, -⟩ | ⟨c', path', b', hpath, rfl, hc, h'⟩
      · cases hnil
      cases hpath
      by_cases heq : c = slash
      · obtain ⟨b'', hrun, hstr⟩ := ih h'
        refine ⟨b'', ?_, ?_⟩
        · rw [skipSlashes, if_pos heq]
          exact hrun
        · rwa [List.dropWhile_cons_of_pos (by simpa using heq)]
      · refine ⟨c :: b', if_neg heq, ?_⟩
        rw [List.dropWhile_cons_of_neg (by simpa using heq)]
        exact h'.cons hc

theorem skipRoot_string (h : CString b path) :
    ∃ b', skipRoot b = .ok b' ∧ CString b' (path.dropWhile (· == slash)) := by
  rcases h.cases with ⟨rfl, rest, rfl⟩ | ⟨c, path', b', rfl, rfl, hc, h'⟩
  · exact ⟨0 :: rest, rfl, cstring_nil⟩
  · by_cases heq : c = slash
    · obtain ⟨b'', hrun, hstr⟩ := skipSlashes_string h'
      refine ⟨b'', ?_, ?_⟩
      · change (if c = slash then skipSlashes b' else .ok (c :: b')) = .ok b''
        rw [if_pos heq]
        exact hrun
      · rwa [List.dropWhile_cons_of_pos (by simpa using heq)]
    · refine ⟨c :: b', if_neg heq, ?_⟩
      rw [List.dropWhile_cons_of_neg (by simpa using heq)]
      exact h'.cons hc

/-- The characters up to the next slash go into the array, behind those that
    are there. -/
theorem copyName_string (h : CString b path) (s rest : List UInt8)
    (hroom : (path.takeWhile (· != slash)).length ≤ rest.length) :
    ∃ b', copyName b (s ++ rest) s.length = .ok (b', s ++ path.takeWhile (· != slash)
        ++ rest.drop (path.takeWhile (· != slash)).length)
      ∧ CString b' (path.dropWhile (· != slash)) := by
  induction path generalizing b s rest with
  | nil =>
      obtain ⟨b', rfl, -⟩ := h
      refine ⟨0 :: b', ?_, cstring_nil⟩
      simp [copyName]
  | cons c path ih =>
      rcases h.cases with ⟨hnil, -⟩ | ⟨c', path', b', hpath, rfl, hc, h'⟩
      · cases hnil
      cases hpath
      by_cases heq : c = slash
      · refine ⟨c :: b', ?_, ?_⟩
        · rw [copyName, if_neg (fun h => h.1 heq), List.takeWhile_cons_of_neg (by simpa using heq)]
          simp
        · rw [List.dropWhile_cons_of_neg (by simpa using heq)]
          exact h'.cons hc
      · rw [List.takeWhile_cons_of_pos (by simpa using heq)] at hroom ⊢
        rw [List.dropWhile_cons_of_pos (by simpa using heq)]
        cases rest with
        | nil => cases hroom
        | cons a rest =>
            obtain ⟨b'', hrun, hstr⟩ := ih h' (s ++ [c]) rest (Nat.le_of_succ_le_succ hroom)
            refine ⟨b'', ?_, hstr⟩
            rw [copyName, if_pos ⟨heq, hc⟩, Buf.store_append]
            rw [List.append_assoc s [c] rest, List.length_append] at hrun
            rw [List.append_assoc, List.append_assoc] at hrun
            rw [List.append_assoc]
            exact hrun

/-- Into any array in which the name fits; no NUL goes behind it. -/
theorem pathParseBytes_any (h : CString b path) (nameStore : Buf)
    (hroom : (pathParse path).1.length ≤ nameStore.length) :
    ∃ sub, pathParseBytes b nameStore
        = .ok (sub, (pathParse path).1 ++ nameStore.drop (pathParse path).1.length)
      ∧ Option.Rel CString sub (pathParse path).2 := by
  obtain ⟨b₁, hskip, hstr₁⟩ := skipRoot_string h
  rw [pathParse] at hroom ⊢
  dsimp only at hroom ⊢
  obtain ⟨b₂, hcopy, hstr₂⟩ := copyName_string hstr₁ [] nameStore hroom
  rw [List.nil_append, List.nil_append, List.length_nil] at hcopy
  obtain ⟨c, hload, hc⟩ := hstr₂.load_zero
  refine ⟨if c = 0 then none else some b₂, ?_, ?_⟩
  · rw [pathParseBytes, hskip, Outcome.ok_bind, hcopy, Outcome.ok_bind]
    dsimp only
    rw [hload, Outcome.ok_bind]
  · by_cases hnil : (path.dropWhile (· == slash)).dropWhile (· != slash) = []
    · rw [if_pos (hc.2 hnil), if_pos hnil]
      exact .none
    · rw [if_neg (mt hc.1 hnil), if_neg hnil]
      exact .some hstr₂

/-- Into an array of zeros, where the name fits with its NUL. -/
theorem pathParseBytes_string (h : CString b path) {n : Nat}
    (hroom : (pathParse path).1.length < n) :
    ∃ sub name, pathParseBytes b (List.replicate n 0) = .ok (sub, name)
      ∧ CString name (pathParse path).1 ∧ name.length = n
      ∧ Option.Rel CString sub (pathParse path).2 := by
  obtain ⟨sub, hrun, hrel⟩ := pathParseBytes_any h (List.replicate n 0)
    (by rw [List.length_replicate]; omega)
  have hdrop : (List.replicate n (0 : UInt8)).drop (pathParse path).1.length
      = 0 :: List.replicate (n - (pathParse path).1.length - 1) 0 := by
    rw [List.drop_replicate, ← List.replicate_succ]
    congr 1
    omega
  have hnul : (0 : UInt8) ∉ (pathParse path).1 := by
    obtain ⟨_, -, hnot⟩ := h
    intro hmem
    rw [pathParse] at hmem
    exact hnot (List.dropWhile_subset _ (List.takeWhile_subset _ hmem))
  refine ⟨sub, _, hrun, ⟨_, by rw [hdrop], hnul⟩, ?_, hrel⟩
  rw [List.length_append, List.length_drop, List.length_replicate]
  omega

/-! ## Names -/

/-- Where `path_parse` finds no name nothing is left of the path. -/
theorem pathParse_rest_nil {path : List UInt8} (h : (pathParse path).1 = []) :
    path.dropWhile (· == slash) = [] := by
  rw [pathParse] at h
  cases hp : path.dropWhile (· == slash) with
  | nil => rfl
  | cons c p =>
      have hhead := List.head_dropWhile_not (· == slash) (l := path) (by rw [hp]; simp)
      simp only [hp, List.head_cons] at hhead
      rw [hp, List.takeWhile_cons_of_pos (by simpa using hhead)] at h
      cases h

/-- The first name of a path, and the names of the rest. -/
theorem words_pathParse (path : List UInt8) :
    words slash path
      = if (pathParse path).1 = [] then []
        else (pathParse path).1 :: ((pathParse path).2.map (words slash)).getD [] := by
  split
  · rw [← words_dropWhile, pathParse_rest_nil ‹_›]
    exact words_nil
  · rename_i hname
    rw [← words_dropWhile]
    rw [pathParse] at hname ⊢
    dsimp only at hname ⊢
    rw [words_takeWhile hname]
    congr 1
    by_cases hrest : (path.dropWhile (· == slash)).dropWhile (· != slash) = []
    · rw [if_pos hrest, hrest]
      exact words_nil
    · rw [if_neg hrest]
      rfl

/-- What `path_parse` stores in `name` is a name of the path, or empty. -/
theorem pathParse_mem {path : List UInt8} (h : (pathParse path).1 ≠ []) :
    (pathParse path).1 ∈ words slash path := by
  rw [words_pathParse, if_neg h]
  exact List.mem_cons_self

/-- The names that are left when `path_parse` has stored `name` and returned
    `subPath`. -/
def namesLeft (name : List UInt8) (subPath : Option (List UInt8)) : List (List UInt8) :=
  if name = [] then [] else name :: (subPath.map (words slash)).getD []

theorem namesLeft_pathParse (path : List UInt8) :
    namesLeft (pathParse path).1 (pathParse path).2 = words slash path := by
  rw [words_pathParse]
  rfl

/-- `path_parse` of the next name, while the names fit into the array. -/
theorem parseNext_meets {served : Prop} {subPath : Option (List UInt8)}
    (h : ∀ name ∈ (subPath.map (words slash)).getD [], name.length < maxFileNameLen) :
    Outcome.Meets served (parseNext subPath) fun r =>
      namesLeft r.1 r.2 = (subPath.map (words slash)).getD [] := by
  cases subPath with
  | none => exact Outcome.meets_ok rfl
  | some path =>
      have hfits : (pathParse path).1.length ≤ maxFileNameLen := by
        by_cases hname : (pathParse path).1 = []
        · rw [hname]
          exact Nat.zero_le _
        · exact Nat.le_of_lt (h _ (pathParse_mem hname))
      rw [parseNext, parseName, if_pos hfits]
      exact Outcome.meets_ok (namesLeft_pathParse path)

theorem namesLeft_ne_nil {name : List UInt8} {subPath : Option (List UInt8)} (h : name ≠ []) :
    namesLeft name subPath = name :: (subPath.map (words slash)).getD [] := if_neg h

/-! ## Called again -/

/-- `if (sub_path) sub_path = path_parse(sub_path, name);` -/
def parseNextBytes (subPath : Option Buf) (name : Buf) : Outcome (Option Buf × Buf) :=
  match subPath with
  | none => .ok (none, name)
  | some subPath => pathParseBytes subPath name

/-- The bytes of the loop variables `name` and `sub_path`, for the names that are
    left. -/
structure ParsedTo (sub : Option Buf) (name : Buf) (names : List (List UInt8)) : Prop where
  string : CString name (names.headD [])
  length : name.length = maxFileNameLen
  rest : ∃ subPath, Option.Rel CString sub subPath
    ∧ (subPath.map (words slash)).getD [] = names.tail

theorem parsedTo_of_pathParse (h : CString b path)
    (hnames : ∀ name ∈ words slash path, name.length < maxFileNameLen) :
    ∃ sub name, pathParseBytes b (List.replicate maxFileNameLen 0) = .ok (sub, name)
      ∧ ParsedTo sub name (words slash path) := by
  have hroom : (pathParse path).1.length < maxFileNameLen := by
    by_cases hname : (pathParse path).1 = []
    · rw [hname]
      decide
    · exact hnames _ (pathParse_mem hname)
  obtain ⟨sub, name, hrun, hstr, hlen, hrel⟩ := pathParseBytes_string h hroom
  refine ⟨sub, name, hrun, ?_, hlen, (pathParse path).2, hrel, ?_⟩
  · rw [words_pathParse]
    split
    · rwa [List.headD_nil, ← ‹(pathParse path).1 = []›]
    · exact hstr
  · rw [words_pathParse]
    split
    · rename_i hname
      rw [pathParse, pathParse_rest_nil hname]
      rfl
    · rfl

/-- `path_parse` of the next name, into an array that was zeroed. -/
theorem parseNextBytes_parsedTo {sub : Option Buf} {subPath : Option (List UInt8)}
    (hrel : Option.Rel CString sub subPath)
    (hnames : ∀ w ∈ (subPath.map (words slash)).getD [], w.length < maxFileNameLen) :
    ∃ sub' name', parseNextBytes sub (List.replicate maxFileNameLen 0) = .ok (sub', name')
      ∧ ParsedTo sub' name' ((subPath.map (words slash)).getD []) := by
  cases hrel with
  | none =>
      exact ⟨none, List.replicate maxFileNameLen 0, rfl, cstring_replicate (by decide),
        List.length_replicate, none, .none, rfl⟩
  | some hstr => exact parsedTo_of_pathParse hstr hnames

/-- The array that holds the name, zeroed and parsed into again. -/
theorem ParsedTo.next {sub : Option Buf} {w : List UInt8} {names : List (List UInt8)}
    (h : ParsedTo sub name (w :: names)) (hnames : ∀ w ∈ names, w.length < maxFileNameLen) :
    ∃ sub' name', parseNextBytes sub (List.replicate maxFileNameLen 0) = .ok (sub', name')
      ∧ ParsedTo sub' name' names := by
  obtain ⟨subPath, hrel, hrest⟩ := h.rest
  rw [List.tail_cons] at hrest
  rw [← hrest] at hnames ⊢
  exact parseNextBytes_parsedTo hrel hnames

end Fs
end JackOS
