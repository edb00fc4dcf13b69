/-
HearthVault.Scan.Walk — which files `scan` reads: the skip lists, the binary
sniff, the directory walk and the reading of text.

A directory tree carries the errors that the file system answers with: a
directory that cannot be listed, an entry whose type is not known. A file
carries its bytes and which of the calls on it succeed. The walk is the stack
of `collect_files`, and it says which paths it has announced as skipped.
-/
import HearthVault.Scan.Staged

namespace HearthVault

open Files

/-! ## Skip lists -/

/-- `SKIP_DIRS`. -/
def skipDirs : List String :=
  [".git", "target", "node_modules", "vendor", "dist", "build", ".venv", "__pycache__"]

/-- `SKIP_FILE_NAMES`. -/
def skipFileNames : List String := [
  ".gitleaksignore", "Cargo.lock", "package-lock.json", "yarn.lock", "pnpm-lock.yaml",
  "composer.lock", "Gemfile.lock", "poetry.lock", "Pipfile.lock", "Podfile.lock", "mix.lock",
  "flake.lock"]

/-- `SCAN_DOT_DIRS`. -/
def scanDotDirs : List String := [".github", ".gitlab", ".circleci", ".config"]

/-- `MAX_SCAN_FILE_SIZE`. -/
def maxScanFileSize : Nat := 1024 * 1024

/-- `should_skip_dir`. -/
def shouldSkipDir (name : Str) : Bool :=
  skipDirs.any (fun d => d.toList = name) ||
    (['.'].isPrefixOf name && !scanDotDirs.any (fun d => d.toList = name))

/-- `should_skip_file`. -/
def shouldSkipFile (name : Str) : Bool :=
  skipFileNames.any (fun f => f.toList = name) || ".lock".toList.isSuffixOf name

/-! ## Files and directories -/

/-- A regular file: its bytes, and whether `metadata`, `File::open`, the read
of the sniff and the reading of the whole succeed. -/
structure RegularFile where
  bytes : List UInt8
  metadata : Bool := true
  opens : Bool := true
  sniffs : Bool := true
  reads : Bool := true
  deriving DecidableEq, Repr

/-- The regular files there are. -/
abbrev FileSystem := Path → Option RegularFile

/-- An item of `read_dir`: its name, and whether the item and its
`file_type` are `Ok`. -/
structure DirEntry where
  name : Str
  ok : Bool := true
  fileType : Bool := true
  deriving DecidableEq, Repr

/-- The entries of a directory, in the order they are listed. The `Bool` of a
subdirectory is whether `read_dir` can list it. -/
inductive Listing where
  | nil
  | file (entry : DirEntry) (rest : Listing)
  | dir (entry : DirEntry) (lists : Bool) (children rest : Listing)
  | other (entry : DirEntry) (rest : Listing)
  deriving DecidableEq, Repr

/-- What the argument of `scan_path` is. -/
inductive Root where
  | file
  | dir (lists : Bool) (listing : Listing)
  | other
  deriving DecidableEq, Repr

/-- `Path::join`. -/
def join (dir name : Str) : Str :=
  dir ++ '/' :: name

/-! ## Reading -/

/-- The first 8 KiB. -/
def RegularFile.head (f : RegularFile) : List UInt8 :=
  f.bytes.take 8192

/-- `looks_binary`. A file that cannot be opened does; one whose read fails
does not. -/
def FileSystem.looksBinary (fs : FileSystem) (p : Path) : Bool :=
  match fs p with
  | none => true
  | some f => !f.opens || (f.sniffs && f.head.contains 0)

/-- The size test of the walk. -/
def FileSystem.tooLarge (fs : FileSystem) (p : Path) : Bool :=
  match fs p with
  | none => false
  | some f => f.metadata && maxScanFileSize < f.bytes.length

/-- `fs::read_to_string`. -/
def FileSystem.readToString (fs : FileSystem) (p : Path) : Option Str :=
  match fs p with
  | none => none
  | some f => if f.reads then Str.fromUtf8 f.bytes else none

/-! ## The walk -/

/-- A directory on the stack. -/
structure StackedDir where
  path : Str
  lists : Bool
  listing : Listing

/-- The stack of `collect_files`, its result so far, and the paths it has
announced as skipped. -/
structure Walk where
  stack : List StackedDir
  out : List Path
  announced : List Path

/-- One regular file of a directory. -/
def Walk.visitFile (fs : FileSystem) (w : Walk) (p : Path) : Walk :=
  if shouldSkipFile p.name then w
  else if fs.tooLarge p then { w with announced := w.announced ++ [p] }
  else if fs.looksBinary p then w
  else { w with out := w.out ++ [p] }

/-- The loop over the entries of a directory. -/
def Walk.visit (fs : FileSystem) (dir : Str) : Listing → Walk → Walk
  | .nil, w => w
  | .file entry rest, w =>
    visit fs dir rest <|
      if !entry.ok || !entry.fileType then w else w.visitFile fs ⟨dir, entry.name⟩
  | .dir entry lists children rest, w =>
    visit fs dir rest <|
      if !entry.ok || !entry.fileType || shouldSkipDir entry.name then w
      else { w with stack := ⟨join dir entry.name, lists, children⟩ :: w.stack }
  | .other _ rest, w => visit fs dir rest w

/-- The number of entries below a directory. -/
def Listing.size : Listing → Nat
  | .nil => 0
  | .file _ rest => rest.size + 1
  | .dir _ _ children rest => children.size + rest.size + 1
  | .other _ rest => rest.size + 1

/-- What is still to be listed. -/
def Walk.left (w : Walk) : Nat :=
  (w.stack.map fun d => d.listing.size + 1).sum

@[simp] theorem Walk.visitFile_stack (fs : FileSystem) (w : Walk) (p : Path) :
    (w.visitFile fs p).stack = w.stack := by
  unfold visitFile
  split
  · rfl
  · split
    · rfl
    · split <;> rfl

theorem Walk.left_visit (fs : FileSystem) (dir : Str) (l : Listing) (w : Walk) :
    (Walk.visit fs dir l w).left ≤ w.left + l.size := by
  induction l generalizing w with
  | nil => simp [visit, Listing.size]
  | file entry rest ih =>
    refine (ih _).trans ?_
    split
    · simp only [Listing.size]
      omega
    · simp only [Walk.left, Walk.visitFile_stack, Listing.size]
      omega
  | dir entry lists children rest _ ih =>
    refine (ih _).trans ?_
    split
    · simp only [Listing.size]
      omega
    · simp only [Walk.left, List.map_cons, List.sum_cons, Listing.size]
      omega
  | other entry rest ih =>
    refine (ih _).trans ?_
    simp only [Listing.size]
    omega

/-- The loop over the stack. -/
def Walk.run (fs : FileSystem) : Walk → Walk
  | ⟨[], out, announced⟩ => ⟨[], out, announced⟩
  | ⟨d :: stack, out, announced⟩ =>
    if d.lists then run fs (visit fs d.path d.listing ⟨stack, out, announced⟩)
    else run fs ⟨stack, out, announced⟩
termination_by w => w.left
decreasing_by
  · have hvisit := left_visit fs d.path d.listing ⟨stack, out, announced⟩
    simp only [Walk.left, List.map_cons, List.sum_cons] at hvisit ⊢
    omega
  · simp only [Walk.left, List.map_cons, List.sum_cons]
    omega

/-- `collect_files`. -/
def collectFiles (fs : FileSystem) (root : Str) (lists : Bool) (listing : Listing) : Walk :=
  Walk.run fs ⟨[⟨root, lists, listing⟩], [], []⟩

/-- What `scan_path` goes on to scan, and what it announced. -/
def scanRoot (fs : FileSystem) (root : Path) : Root → Walk
  | .file => ⟨[], [root], []⟩
  | .dir lists listing => collectFiles fs (join root.dir root.name) lists listing
  | .other => collectFiles fs (join root.dir root.name) false .nil

/-- `scan_path`. -/
def scanPath (scanner : Scanner) (fs : FileSystem) (root : Path) (tree : Root) :
    Option (List ScanFinding) :=
  scanFiles scanner fs.readToString (scanRoot fs root tree).out

end HearthVault
