import FFZKit.Util.FilePath

/-!
# Walking and deleting directories

`scanDir`, `delete_file` and `deleteEmptyDir` go from path to path, as texts,
and ask the file system at each.

## Implementation notes

The file system is a parameter. `opendir` gives the names that `readdir` would
return, those of the directory itself and its parent included, and nothing
where it fails. The calls that delete tell whether they succeed. A callback is
called with the calls before it, on which its answer may depend. The functions
that call themselves have a bound on their depth, and no result beyond it.
-/

namespace FFZKit.Util.File

/-- The calls of the file system. -/
structure FileOps (σ : Type*) where
  opendir : σ → Bytes → Option (List Bytes)
  rmdir : σ → Bytes → σ × Bool
  remove : σ → Bytes → σ × Bool
  unlink : σ → Bytes → σ × Bool

/-- `if (path.back() == '/') path.pop_back()` on a path that is not empty. -/
def popSlash (path : Bytes) : Bytes := if path.getLast? = some slash then path.dropLast else path

/-- `path + "/" + name` -/
def childPath (path name : Bytes) : Bytes := path ++ [slash] ++ name

/-- `is_special_dir(path)` -/
def isSpecialDir (path : Bytes) : Bool := path == thisDir || path == upperDir

/-- The name begins with a dot. -/
def isHidden (name : Bytes) : Bool := name.head? == some '.'.toUInt8

/-- The calls of the callback of `scanDir`: the path, and whether it is a directory. -/
abbrev ScanCalls := List (Bytes × Bool)

/-- The answer of a callback after some calls. -/
abbrev ScanCallback := ScanCalls → Bytes × Bool → Bool

section Scan

variable (opendir : Bytes → Option (List Bytes)) (cb : ScanCallback) (enterSubdirectory : Bool)

/-- `is_dir(path)` -/
def isDir (path : Bytes) : Bool := (opendir path).isSome

/-- The loop of `scanDir` over what `readdir` returns. -/
def scanNames (recur : Bytes → ScanCalls → Option ScanCalls) (path : Bytes)
    (showHiddenFile : Bool) : List Bytes → ScanCalls → Option ScanCalls
  | [], calls => some calls
  | name :: names, calls =>
      if isSpecialDir name then scanNames recur path showHiddenFile names calls
      else if !showHiddenFile && isHidden name then scanNames recur path showHiddenFile names calls
      else
        let entry := (childPath path name, isDir opendir (childPath path name))
        if !cb calls entry then some (calls ++ [entry])
        else if entry.2 && enterSubdirectory then
          match recur entry.1 (calls ++ [entry]) with
          | none => none
          | some calls => scanNames recur path showHiddenFile names calls
        else scanNames recur path showHiddenFile names (calls ++ [entry])

/-- `scanDir(path, cb, enter_subdirectory, show_hidden_file)`. The call for a
subdirectory leaves the last argument to its default, which is false. -/
def scanDir : Nat → Bytes → Bool → ScanCalls → Option ScanCalls
  | 0, _, _, _ => none
  | fuel + 1, path, showHiddenFile, calls =>
      match opendir (popSlash path) with
      | none => some calls
      | some names =>
          scanNames opendir cb enterSubdirectory (fun path => scanDir fuel path false)
            (popSlash path) showHiddenFile names calls

end Scan

/-- `isEmptyDir(path)`: the callback answers false, so there is no depth. -/
def isEmptyDir (opendir : Bytes → Option (List Bytes)) (path : Bytes) : Bool :=
  scanDir opendir (fun _ _ => false) true 1 path true [] == some []

namespace FileOps

variable {σ : Type*} (fs : FileOps σ)

/-- The loop of `delete_file_l` over what `readdir` returns. -/
def deleteNames (recur : σ → Bytes → Option (σ × Bool)) (path : Bytes) :
    List Bytes → σ → Option σ
  | [], s => some s
  | name :: names, s =>
      if isSpecialDir name then deleteNames recur path names s
      else
        match recur s (childPath path name) with
        | none => none
        | some (s', _) => deleteNames recur path names s'

/-- `delete_file_l(path)`, which is also `delete_file(path)` with its default
arguments. The answer is whether it returns 0. -/
def deleteFileL : Nat → σ → Bytes → Option (σ × Bool)
  | 0, _, _ => none
  | fuel + 1, s, path =>
      if isDir (fs.opendir s) (popSlash path) then
        match fs.opendir s (popSlash path) with
        | none => some (fs.rmdir s (popSlash path))
        | some names =>
            match deleteNames (deleteFileL fuel) (popSlash path) names s with
            | none => none
            | some s' => some (fs.rmdir s' (popSlash path))
      else
        match fs.remove s (popSlash path) with
        | (s', true) => some (s', true)
        | (s', false) => some (fs.unlink s' (popSlash path))

/-- `deleteEmptyDir(dir, backtrace)` -/
def deleteEmptyDir (backtrace : Bool) : Nat → σ → Bytes → Option σ
  | 0, _, _ => none
  | fuel + 1, s, dir =>
      if !isDir (fs.opendir s) dir || !isEmptyDir (fs.opendir s) dir then some s
      else
        match fs.deleteFileL (fuel + 1) s dir with
        | none => none
        | some (s', _) =>
            if backtrace then
              match parentDir dir with
              | none => none
              | some parent => deleteEmptyDir backtrace fuel s' parent
            else some s'

/-- `delete_file(path, del_empty_dir, backtrace)` -/
def deleteFile (fuel : Nat) (s : σ) (path : Bytes) (delEmptyDir backtrace : Bool) :
    Option (σ × Bool) :=
  match fs.deleteFileL fuel s path with
  | none => none
  | some (s', ret) =>
      if ret && delEmptyDir then
        match parentDir path with
        | none => none
        | some parent =>
            match fs.deleteEmptyDir backtrace fuel s' parent with
            | none => none
            | some s'' => some (s'', ret)
      else some (s', ret)

end FileOps

end FFZKit.Util.File
