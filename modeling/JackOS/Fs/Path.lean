/-
  JackOS.Fs.Path

  Paths in fs/fs.c: `path_parse`, `path_depth_cnt` and the walk of
  `search_file`.  A path is its bytes without the NUL that ends it.
-/

import JackOS.Fs.Dir

namespace JackOS
namespace Fs

open Base

/-- The character '/'. -/
abbrev slash : UInt8 := 47

/-! ## Parsing -/

/-- `path_parse`: the name it stores and the path it returns. -/
def pathParse (pathname : List UInt8) : List UInt8 × Option (List UInt8) :=
  let pathname := pathname.dropWhile (· == slash)
  let rest := pathname.dropWhile (· != slash)
  (pathname.takeWhile (· != slash), if rest = [] then none else some rest)

/-- `path_parse` into an array of `MAX_FILE_NAME_LEN` bytes, which a longer name
    overruns. -/
def parseName (pathname : List UInt8) : Outcome (List UInt8 × Option (List UInt8)) :=
  let r := pathParse pathname
  if r.1.length ≤ maxFileNameLen then .ok r else .error .undefined

/-- `if (p) p = path_parse(p, name)`, on an array that is all zero. -/
def parseNext : Option (List UInt8) → Outcome (List UInt8 × Option (List UInt8))
  | none => .ok ([], none)
  | some p => parseName p

/-- The loop of `path_depth_cnt`, at most `fuel` rounds. -/
def depthLoop : (fuel depth : Nat) → (name : List UInt8) → Option (List UInt8) → Outcome Nat
  | fuel, depth, name, p =>
      if name = [] then .ok depth
      else
        match fuel with
        | 0 => .error .diverges
        | fuel + 1 => do
            let (name, p) ← parseNext p
            depthLoop fuel (depth + 1) name p

/-- `path_depth_cnt`.  Its array is not initialised, so an empty first name
    leaves `name[0]` undefined. -/
def pathDepthCnt (pathname : List UInt8) : Outcome Nat := do
  let (name, p) ← parseName pathname
  if name = [] then .error .undefined else depthLoop (pathname.length + 1) 0 name p

/-- `strrchr(pathname, '/') + 1`; `none` where there is no '/'. -/
def baseName (pathname : List UInt8) : Option (List UInt8) :=
  if slash ∈ pathname then some (pathname.reverse.takeWhile (· != slash)).reverse else none

/-! ## Searching -/

/-- `path_search_record` -/
structure PathSearchRecord where
  searchedPath : List UInt8
  parentDir : Dir
  fileType : FileType

/-- An inode number returned as an `int`; `none` is -1. -/
def inodeNoAsInt (inodeNo : Nat) : Option Nat := if inodeNo = 2 ^ 32 - 1 then none else some inodeNo

/-- `strcat(searched_path, "/"); strcat(searched_path, name)`, on an array of
    `MAX_PATH_LEN` bytes; a name without its NUL runs on. -/
def appendName (searchedPath name : List UInt8) : Outcome (List UInt8) :=
  if name.length < maxFileNameLen ∧ searchedPath.length + 1 + name.length < maxPathLen then
    .ok (searchedPath ++ slash :: name)
  else .error .undefined

/-- The end of `search_file`, where all names have been looked up: the
    directory reached is closed and its parent opened again. -/
def searchEnd (parentDir : Dir) (parentInodeNo : Nat) (dirE : Option DirEntry)
    (searchedPath : List UInt8) (s : FsState) :
    Outcome (Option Nat × PathSearchRecord × FsState) := do
  let s ← dirClose s parentDir
  let (parentDir, s) ← dirOpen s parentInodeNo
  match dirE with
  | none => .error .undefined
  | some dirE => .ok (inodeNoAsInt dirE.iNo, ⟨searchedPath, parentDir, .directory⟩, s)

/-- The loop of `search_file`, at most `fuel` rounds. -/
def searchLoop : (fuel : Nat) → (name : List UInt8) → (subPath : Option (List UInt8)) →
    (parentDir : Dir) → (parentInodeNo : Nat) → (dirE : Option DirEntry) →
    (searchedPath : List UInt8) → FsState → Outcome (Option Nat × PathSearchRecord × FsState)
  | fuel, name, subPath, parentDir, parentInodeNo, dirE, searchedPath, s =>
      if name = [] then searchEnd parentDir parentInodeNo dirE searchedPath s
      else
        match fuel with
        | 0 => .error .diverges
        | fuel + 1 => do
            kassert s (searchedPath.length < maxPathLen)
            let searchedPath ← appendName searchedPath name
            let (found, s) ← searchDirEntry s parentDir.inode name
            match found with
            | none => .ok (none, ⟨searchedPath, parentDir, .unknow⟩, s)
            | some de =>
                let (name, subPath) ← parseNext subPath
                if de.fType = FileType.directory.toWord then
                  let parentInodeNo := (s.inodes parentDir.inode).iNo
                  let s ← dirClose s parentDir
                  let (parentDir, s) ← dirOpen s de.iNo
                  searchLoop fuel name subPath parentDir parentInodeNo (some de) searchedPath s
                else if de.fType = FileType.regular.toWord then
                  .ok (inodeNoAsInt de.iNo, ⟨searchedPath, parentDir, .regular⟩, s)
                else
                  searchLoop fuel name subPath parentDir parentInodeNo (some de) searchedPath s

/-- "/", "/." and "/..". -/
def isRootPath (pathname : List UInt8) : Bool :=
  pathname == [slash] || pathname == slash :: dot || pathname == slash :: dotDot

/-- `search_file` -/
def searchFile (s : FsState) (pathname : List UInt8) :
    Outcome (Option Nat × PathSearchRecord × FsState) :=
  if isRootPath pathname then .ok (some 0, ⟨[], s.rootDir, .directory⟩, s)
  else do
    kassert s (pathname.head? = some slash ∧ 1 < pathname.length ∧ pathname.length < maxPathLen)
    let (name, subPath) ← parseName pathname
    searchLoop (pathname.length + 1) name subPath s.rootDir 0 none [] s

end Fs
end JackOS
