/-
  WebServer.Lessons.FileNum

  `getFileNum` of lesson1.28, readFileNum.c: the entries for regular files in
  and below a directory, counted by recursion over its subdirectories.

  A file system is what `opendir` and `readdir` answer for a path; it does not
  change while the program runs.  It need not be a tree: the same directory
  may be listed under many paths, also below itself.  The path of a
  subdirectory is put into `char newpath[256]` without a check of its length.
  A longer one is written outside the array, a fault, and that is what bounds
  the recursion: every call has a longer path than its caller, so the program
  ends on every file system (`getFileNum_fuel`, `counted_of_fuel`).

  It returns if and only if every directory below `path` can be opened and has
  a path that fits, and what it returns is the number of paths under which
  regular files are found (`getFileNum_counts`).  Each path is counted once; a
  file with two names, or in a directory that is listed under two paths, is
  counted under each of them.
-/

import Mathlib.Data.Set.Lattice
import Mathlib.Data.Finset.Card
import Mathlib.Data.List.TakeWhile
import WebServer.Lib.CString

namespace WebServer.FileNum

open WebServer.Lib

/-! ## The source -/

def SLASH : UInt8 := 47

/-- `char newpath[256]` -/
def NEWPATH_SIZE : Nat := 256

def INT_MAX : Nat := 2147483647

/-- `d_type`; `other` is every value but `DT_REG` and `DT_DIR`. -/
inductive DType where
  | reg | dir | other
deriving DecidableEq, Repr

structure Dirent where
  dName : List UInt8
  dType : DType
deriving DecidableEq, Repr

/-- What `opendir` finds under a path, and `readdir` then returns one by one.
    The names in a directory differ and have no slash in them. -/
structure FileSystem where
  opendir : List UInt8 → Option (List Dirent)
  nodup : ∀ path listing, opendir path = some listing → (listing.map Dirent.dName).Nodup
  slash_free : ∀ path listing, opendir path = some listing → ∀ ptr ∈ listing, SLASH ∉ ptr.dName

/-- How the program ends before `getFileNum` returns. -/
inductive Stop where
  | exit
  | overflow
  | fault (fault : Fault)
deriving DecidableEq, Repr

/-- A computation that may stop the program, or run out of fuel. -/
abbrev Run := ExceptT Stop Option

/-- What `sprintf(newpath, "%s/%s", path, dname)` writes, without the NUL. -/
def join (path dname : List UInt8) : List UInt8 := path ++ SLASH :: dname

def newpath (path dname : List UInt8) : Run (List UInt8) :=
  if (join path dname).length < NEWPATH_SIZE then
    pure (join path dname)
  else
    throw (.fault .outOfBounds)

/-- `total += n`; `total` is an `int` and never negative. -/
def add (total n : Nat) : Run Nat :=
  if total + n ≤ INT_MAX then pure (total + n) else throw .overflow

/-- `strcmp(dname, ".") == 0 || strcmp(dname, "..") == 0` -/
def Dirent.isDot (ptr : Dirent) : Bool :=
  ptr.dName == ascii "." || ptr.dName == ascii ".."

/-- One pass of the loop over the entries. -/
def countEntry (getFileNum : List UInt8 → Run Nat) (path : List UInt8) (total : Nat)
    (ptr : Dirent) : Run Nat := do
  if ptr.isDot then
    return total
  match ptr.dType with
  | .dir => add total (← getFileNum (← newpath path ptr.dName))
  | .reg => add total 1
  | .other => return total

/-- `getFileNum(path)`, cut off after `fuel` nested calls. -/
def getFileNum (fs : FileSystem) : Nat → List UInt8 → Run Nat
  | 0, _ => none
  | fuel + 1, path =>
      match fs.opendir path with
      | none => throw .exit
      | some listing => listing.foldlM (countEntry (getFileNum fs fuel) path) 0

/-! ## What there is to count -/

/-- `Dir fs path d`: `d` is `path` or the path of a directory below it. -/
inductive Dir (fs : FileSystem) : List UInt8 → List UInt8 → Prop where
  | here (path : List UInt8) : Dir fs path path
  | sub {path d : List UInt8} {listing : List Dirent} {ptr : Dirent} :
      fs.opendir path = some listing → ptr ∈ listing → ptr.isDot = false → ptr.dType = .dir →
      Dir fs (join path ptr.dName) d → Dir fs path d

/-- `q` is the path of a regular file in `path` or a directory below it. -/
def IsFile (fs : FileSystem) (path q : List UInt8) : Prop :=
  ∃ d listing ptr, Dir fs path d ∧ fs.opendir d = some listing ∧ ptr ∈ listing ∧
    ptr.isDot = false ∧ ptr.dType = .reg ∧ q = join d ptr.dName

/-- A part of the file system, as paths: the directories in it, those of them
    whose path goes through `newpath`, and the regular files. -/
@[ext]
structure Region where
  opened : Set (List UInt8)
  named : Set (List UInt8)
  files : Set (List UInt8)

namespace Region

def empty : Region := ⟨∅, ∅, ∅⟩

def union (R S : Region) : Region := ⟨R.opened ∪ S.opened, R.named ∪ S.named, R.files ∪ S.files⟩

end Region

/-- What `getFileNum(path)` has to look at. -/
def below (fs : FileSystem) (path : List UInt8) : Region where
  opened := {d | Dir fs path d}
  named := {d | Dir fs path d ∧ d ≠ path}
  files := {q | IsFile fs path q}

/-- What one pass of its loop has to look at. -/
def belowEntry (fs : FileSystem) (path : List UInt8) (ptr : Dirent) : Region :=
  if ptr.isDot then
    .empty
  else
    match ptr.dType with
    | .dir =>
        { below fs (join path ptr.dName) with named := {d | Dir fs (join path ptr.dName) d} }
    | .reg => ⟨∅, ∅, {join path ptr.dName}⟩
    | .other => .empty

/-- What the whole loop has to look at. -/
def belowEntries (fs : FileSystem) (path : List UInt8) (listing : List Dirent) : Region where
  opened := {d | ∃ ptr ∈ listing, d ∈ (belowEntry fs path ptr).opened}
  named := {d | ∃ ptr ∈ listing, d ∈ (belowEntry fs path ptr).named}
  files := {q | ∃ ptr ∈ listing, q ∈ (belowEntry fs path ptr).files}

/-- The outcome of counting the region `R` when `total` paths were counted
    before. -/
def Counted (fs : FileSystem) (R : Region) (total : Nat) : Except Stop Nat → Prop
  | .ok n =>
      (∀ d ∈ R.opened, (fs.opendir d).isSome) ∧ (∀ d ∈ R.named, d.length < NEWPATH_SIZE) ∧
        n ≤ INT_MAX ∧ ∃ files : Finset (List UInt8), ↑files = R.files ∧ n = total + files.card
  | .error .exit => ∃ d ∈ R.opened, fs.opendir d = none
  | .error .overflow =>
      ∃ files : Finset (List UInt8), ↑files ⊆ R.files ∧ INT_MAX < total + files.card
  | .error (.fault fault) => fault = .outOfBounds ∧ ∃ d ∈ R.named, NEWPATH_SIZE ≤ d.length

/-! ## Counting in parts -/

section Parts

variable {fs : FileSystem} {R S : Region} {total : Nat}

theorem counted_empty (h : total ≤ INT_MAX) : Counted fs .empty total (.ok total) := by
  refine ⟨?_, ?_, h, ∅, Finset.coe_empty, rfl⟩
  · intro d hd
    exact absurd hd (Set.notMem_empty d)
  · intro d hd
    exact absurd hd (Set.notMem_empty d)

/-- The program has ended in the first part. -/
theorem Counted.stopped {stop : Stop} (h : Counted fs R total (.error stop)) :
    Counted fs (R.union S) total (.error stop) := by
  cases stop with
  | exit =>
      obtain ⟨d, hd, hnone⟩ := h
      exact ⟨d, Or.inl hd, hnone⟩
  | overflow =>
      obtain ⟨files, hfiles, hcard⟩ := h
      exact ⟨files, hfiles.trans Set.subset_union_left, hcard⟩
  | fault fault =>
      obtain ⟨hfault, d, hd, hlong⟩ := h
      exact ⟨hfault, d, Or.inl hd, hlong⟩

/-- The first part has been counted and the count goes on.  No path of a file in
    the second part may have been seen in the first. -/
theorem Counted.next {m : Nat} {out : Except Stop Nat} (h : Counted fs R total (.ok m))
    (hnext : Counted fs S m out) (hdisjoint : ∀ q ∈ R.files, q ∉ S.files) :
    Counted fs (R.union S) total out := by
  obtain ⟨hopen, hshort, -, files, hfiles, rfl⟩ := h
  have hcard : ∀ more : Finset (List UInt8), ↑more ⊆ S.files →
      (files ∪ more).card = files.card + more.card := by
    intro more hmore
    apply Finset.card_union_of_disjoint
    rw [Finset.disjoint_left]
    intro q hq hq'
    exact hdisjoint q (hfiles ▸ hq) (hmore hq')
  cases out with
  | ok n =>
      obtain ⟨hopen', hshort', hn, more, hmore, rfl⟩ := hnext
      refine ⟨?_, ?_, hn, files ∪ more, ?_, ?_⟩
      · rintro d (hd | hd)
        · exact hopen d hd
        · exact hopen' d hd
      · rintro d (hd | hd)
        · exact hshort d hd
        · exact hshort' d hd
      · rw [Finset.coe_union, hfiles, hmore]
        rfl
      · rw [hcard more hmore.subset, Nat.add_assoc]
  | error stop =>
      cases stop with
      | exit =>
          obtain ⟨d, hd, hnone⟩ := hnext
          exact ⟨d, Or.inr hd, hnone⟩
      | overflow =>
          obtain ⟨more, hmore, hover⟩ := hnext
          refine ⟨files ∪ more, ?_, ?_⟩
          · rw [Finset.coe_union, hfiles]
            exact Set.union_subset_union_right R.files hmore
          · rw [hcard more hmore, ← Nat.add_assoc]
            exact hover
      | fault fault =>
          obtain ⟨hfault, d, hd, hlong⟩ := hnext
          exact ⟨hfault, d, Or.inr hd, hlong⟩

end Parts

/-! ## The regions of the recursion -/

section Regions

variable {fs : FileSystem} {path : List UInt8} {listing : List Dirent} {ptr : Dirent}

theorem mem_belowEntry_opened {d : List UInt8} : d ∈ (belowEntry fs path ptr).opened ↔
    ptr.isDot = false ∧ ptr.dType = .dir ∧ Dir fs (join path ptr.dName) d := by
  rw [belowEntry]
  cases hdot : ptr.isDot <;> cases htype : ptr.dType <;> simp [Region.empty, below]

/-- The path of every directory below an entry goes through `newpath`. -/
theorem belowEntry_named : (belowEntry fs path ptr).named = (belowEntry fs path ptr).opened := by
  rw [belowEntry]
  cases hdot : ptr.isDot <;> cases htype : ptr.dType <;> rfl

theorem mem_belowEntry_files {q : List UInt8} : q ∈ (belowEntry fs path ptr).files ↔
    ptr.isDot = false ∧ (ptr.dType = .dir ∧ IsFile fs (join path ptr.dName) q ∨
      ptr.dType = .reg ∧ q = join path ptr.dName) := by
  rw [belowEntry]
  cases hdot : ptr.isDot <;> cases htype : ptr.dType <;> simp [Region.empty, below]

theorem belowEntries_nil : belowEntries fs path [] = .empty := by
  simp [belowEntries, Region.empty]

theorem belowEntries_cons (ptr : Dirent) (listing : List Dirent) :
    belowEntries fs path (ptr :: listing)
      = (belowEntry fs path ptr).union (belowEntries fs path listing) := by
  ext <;> simp [belowEntries, Region.union]

end Regions

/-! ## Paths

The name behind `path/` tells which entry of `path` a path belongs to, so no
path belongs to two of them. -/

section Paths

variable {fs : FileSystem} {path d q dname : List UInt8}

def component (path q : List UInt8) : List UInt8 :=
  (q.drop (path.length + 1)).takeWhile fun b => b != SLASH

theorem drop_join (path dname rest : List UInt8) :
    (join path dname ++ rest).drop (path.length + 1) = dname ++ rest := by
  rw [join, List.append_assoc, List.cons_append, ← List.drop_drop, List.drop_left]
  rfl

theorem component_join (h : SLASH ∉ dname) : component path (join path dname) = dname := by
  have hdrop := drop_join path dname []
  rw [List.append_nil, List.append_nil] at hdrop
  rw [component, hdrop, List.takeWhile_eq_self_iff]
  intro b hb
  exact bne_iff_ne.mpr fun hslash => h (hslash ▸ hb)

theorem component_of_under (h : SLASH ∉ dname) (hq : join path dname ++ [SLASH] <+: q) :
    component path q = dname := by
  obtain ⟨rest, rfl⟩ := hq
  rw [component, List.append_assoc, drop_join, List.takeWhile_append_of_pos]
  · exact List.append_nil dname
  · intro b hb
    exact bne_iff_ne.mpr fun hslash => h (hslash ▸ hb)

theorem under_of_dir (h : Dir fs path d) (dname : List UInt8) :
    path ++ [SLASH] <+: join d dname := by
  induction h with
  | here path => exact ⟨dname, by rw [join, List.append_assoc, List.singleton_append]⟩
  | @sub path d listing ptr hopen hmem hdot hdir hd ih =>
      refine List.IsPrefix.trans ?_ ih
      exact ⟨ptr.dName ++ [SLASH], by simp [join]⟩

theorem length_le_of_dir (h : Dir fs path d) : path.length ≤ d.length := by
  have hle := (under_of_dir h []).length_le
  simp only [join, List.length_append, List.length_singleton] at hle
  omega

theorem component_of_mem {ptr : Dirent} (hslash : SLASH ∉ ptr.dName)
    (hq : q ∈ (belowEntry fs path ptr).files) : component path q = ptr.dName := by
  obtain ⟨-, ⟨-, d, listing, file, hd, -, -, -, -, rfl⟩ | ⟨-, rfl⟩⟩ := mem_belowEntry_files.mp hq
  · exact component_of_under hslash (under_of_dir hd file.dName)
  · exact component_join hslash

/-- No path belongs to two entries of a directory. -/
theorem entries_disjoint {listing : List Dirent} (hopen : fs.opendir path = some listing) :
    listing.Pairwise fun ptr ptr' =>
      ∀ q ∈ (belowEntry fs path ptr).files, q ∉ (belowEntry fs path ptr').files := by
  have hnames := List.pairwise_map.mp (fs.nodup path listing hopen)
  refine hnames.imp_of_mem fun {ptr ptr'} hmem hmem' hne => ?_
  intro q hq hq'
  apply hne
  rw [← component_of_mem (fs.slash_free path listing hopen ptr hmem) hq]
  exact component_of_mem (fs.slash_free path listing hopen ptr' hmem') hq'

end Paths

section Directory

variable {fs : FileSystem} {path : List UInt8} {listing : List Dirent}

theorem dir_iff {d : List UInt8} (hopen : fs.opendir path = some listing) :
    Dir fs path d ↔ d = path ∨ d ∈ (belowEntries fs path listing).opened := by
  constructor
  · intro hd
    cases hd with
    | here => exact Or.inl rfl
    | sub hopen' hmem hdot hdir hd =>
        obtain rfl := Option.some.inj (hopen.symm.trans hopen')
        exact Or.inr ⟨_, hmem, mem_belowEntry_opened.mpr ⟨hdot, hdir, hd⟩⟩
  · rintro (rfl | ⟨ptr, hmem, hd⟩)
    · exact .here d
    · obtain ⟨hdot, hdir, hd⟩ := mem_belowEntry_opened.mp hd
      exact .sub hopen hmem hdot hdir hd

theorem isFile_iff {q : List UInt8} (hopen : fs.opendir path = some listing) :
    IsFile fs path q ↔ q ∈ (belowEntries fs path listing).files := by
  constructor
  · rintro ⟨d, listing', file, hd, hopen', hmem, hdot, hreg, rfl⟩
    cases hd with
    | here =>
        obtain rfl := Option.some.inj (hopen.symm.trans hopen')
        exact ⟨file, hmem, mem_belowEntry_files.mpr ⟨hdot, Or.inr ⟨hreg, rfl⟩⟩⟩
    | @sub _ _ _ ptr hopen'' hmem' hdot' hdir hd =>
        obtain rfl := Option.some.inj (hopen.symm.trans hopen'')
        refine ⟨ptr, hmem', mem_belowEntry_files.mpr ⟨hdot', Or.inl ⟨hdir, ?_⟩⟩⟩
        exact ⟨d, listing', file, hd, hopen', hmem, hdot, hreg, rfl⟩
  · rintro ⟨ptr, hmem, hq⟩
    obtain ⟨hdot, ⟨hdir, d, listing', file, hd, hrest⟩ | ⟨hreg, rfl⟩⟩ :=
      mem_belowEntry_files.mp hq
    · exact ⟨d, listing', file, .sub hopen hmem hdot hdir hd, hrest⟩
    · exact ⟨path, listing, ptr, .here path, hopen, hmem, hdot, hreg, rfl⟩

/-- A directory that can be opened is itself and what is below its entries. -/
theorem below_eq (hopen : fs.opendir path = some listing) :
    below fs path = (Region.mk {path} ∅ ∅).union (belowEntries fs path listing) := by
  ext d
  · exact dir_iff hopen
  · have hnamed : d ∈ (belowEntries fs path listing).named ↔
        d ∈ (belowEntries fs path listing).opened := by
      simp only [belowEntries, belowEntry_named, Set.mem_ofPred_eq]
    rw [Region.union, Set.empty_union, hnamed]
    show Dir fs path d ∧ d ≠ path ↔ _
    rw [dir_iff hopen]
    refine ⟨fun h => h.1.resolve_left h.2, fun hd => ⟨Or.inr hd, ?_⟩⟩
    -- below an entry paths are longer
    rintro rfl
    obtain ⟨ptr, -, hd⟩ := hd
    have hle := length_le_of_dir (mem_belowEntry_opened.mp hd).2.2
    rw [join, List.length_append, List.length_cons] at hle
    omega
  · show IsFile fs path d ↔ d ∈ ∅ ∪ _
    rw [Set.empty_union]
    exact isFile_iff hopen

end Directory

/-! ## The recursion -/

section Recursion

variable {fs : FileSystem} {path : List UInt8} {listing : List Dirent} {ptr : Dirent}
  {call call' : List UInt8 → Run Nat} {total : Nat}

/-- `total +=` the files of a region in which nothing stops the program. -/
theorem counted_add {R : Region} (files : Finset (List UInt8))
    (hopen : ∀ d ∈ R.opened, (fs.opendir d).isSome)
    (hshort : ∀ d ∈ R.named, d.length < NEWPATH_SIZE) (hfiles : ↑files = R.files) :
    ∃ out, add total files.card = some out ∧ Counted fs R total out := by
  by_cases hle : total + files.card ≤ INT_MAX
  · exact ⟨.ok (total + files.card), if_pos hle, hopen, hshort, hle, files, hfiles, rfl⟩
  · exact ⟨.error .overflow, if_neg hle, files, hfiles.subset, Nat.lt_of_not_le hle⟩

/-- A directory among the entries, given what the call for it does. -/
theorem counted_call (hdot : ptr.isDot = false) (hdir : ptr.dType = .dir)
    (hcall : (join path ptr.dName).length < NEWPATH_SIZE →
      ∃ out, call (join path ptr.dName) = some out ∧
        Counted fs (below fs (join path ptr.dName)) 0 out) :
    ∃ out, countEntry call path total ptr = some out ∧
      Counted fs (belowEntry fs path ptr) total out := by
  have hregion : belowEntry fs path ptr = { below fs (join path ptr.dName) with
      named := {d | Dir fs (join path ptr.dName) d} } := by
    rw [belowEntry, hdot, if_neg Bool.false_ne_true, hdir]
  have hpass : countEntry call path total ptr
      = newpath path ptr.dName >>= fun p => call p >>= fun n => add total n := by
    rw [countEntry, hdot, if_neg Bool.false_ne_true, hdir]
  rw [hregion, hpass, newpath]
  by_cases hfits : (join path ptr.dName).length < NEWPATH_SIZE
  · obtain ⟨out, hout, hcounted⟩ := hcall hfits
    rw [if_pos hfits, pure_bind, hout]
    cases out with
    | ok n =>
        obtain ⟨hopen, hshort, -, files, hfiles, rfl⟩ := hcounted
        rw [Nat.zero_add]
        refine counted_add files hopen ?_ hfiles
        intro d hd
        -- the path of the entry itself is the one that has just been checked
        by_cases hself : d = join path ptr.dName
        · exact hself ▸ hfits
        · exact hshort d ⟨hd, hself⟩
    | error stop =>
        refine ⟨.error stop, rfl, ?_⟩
        cases stop with
        | exit => exact hcounted
        | overflow =>
            obtain ⟨files, hfiles, hover⟩ := hcounted
            exact ⟨files, hfiles, by omega⟩
        | fault fault =>
            obtain ⟨hfault, d, hd, hlong⟩ := hcounted
            exact ⟨hfault, d, hd.1, hlong⟩
  · rw [if_neg hfits]
    exact ⟨.error (.fault .outOfBounds), rfl, rfl, _, .here _, Nat.le_of_not_lt hfits⟩

/-- Step lemma of the loop. -/
theorem counted_entry (htotal : total ≤ INT_MAX)
    (hcall : (join path ptr.dName).length < NEWPATH_SIZE →
      ∃ out, call (join path ptr.dName) = some out ∧
        Counted fs (below fs (join path ptr.dName)) 0 out) :
    ∃ out, countEntry call path total ptr = some out ∧
      Counted fs (belowEntry fs path ptr) total out := by
  cases hdot : ptr.isDot with
  | true =>
      rw [countEntry, belowEntry, hdot, if_pos rfl, if_pos rfl]
      exact ⟨.ok total, rfl, counted_empty htotal⟩
  | false =>
      cases htype : ptr.dType with
      | dir => exact counted_call hdot htype hcall
      | reg =>
          rw [countEntry, belowEntry, hdot, if_neg Bool.false_ne_true, if_neg Bool.false_ne_true,
            htype]
          refine counted_add {join path ptr.dName} ?_ ?_ (Finset.coe_singleton _)
          · intro d hd
            exact absurd hd (Set.notMem_empty d)
          · intro d hd
            exact absurd hd (Set.notMem_empty d)
      | other =>
          rw [countEntry, belowEntry, hdot, if_neg Bool.false_ne_true, if_neg Bool.false_ne_true,
            htype]
          exact ⟨.ok total, rfl, counted_empty htotal⟩

/-- The loop over entries that have no path in common. -/
theorem counted_entries (htotal : total ≤ INT_MAX)
    (hcall : ∀ ptr ∈ listing, (join path ptr.dName).length < NEWPATH_SIZE →
      ∃ out, call (join path ptr.dName) = some out ∧
        Counted fs (below fs (join path ptr.dName)) 0 out)
    (hdisjoint : listing.Pairwise fun ptr ptr' =>
      ∀ q ∈ (belowEntry fs path ptr).files, q ∉ (belowEntry fs path ptr').files) :
    ∃ out, listing.foldlM (countEntry call path) total = some out ∧
      Counted fs (belowEntries fs path listing) total out := by
  induction listing generalizing total with
  | nil =>
      rw [belowEntries_nil]
      exact ⟨.ok total, rfl, counted_empty htotal⟩
  | cons ptr rest ih =>
      rw [List.pairwise_cons] at hdisjoint
      rw [List.foldlM_cons, belowEntries_cons]
      obtain ⟨out, hout, hcounted⟩ := counted_entry htotal (hcall ptr List.mem_cons_self)
      rw [hout]
      cases out with
      | error stop => exact ⟨.error stop, rfl, hcounted.stopped⟩
      | ok m =>
          -- the rest is counted on from `m`
          obtain ⟨out, hrest, hcounted'⟩ := ih hcounted.2.2.1
            (fun ptr hmem => hcall ptr (List.mem_cons_of_mem _ hmem)) hdisjoint.2
          refine ⟨out, hrest, hcounted.next hcounted' ?_⟩
          rintro q hq ⟨ptr', hmem, hq'⟩
          exact hdisjoint.1 ptr' hmem q hq hq'

/-- Every call has a longer path than its caller, and one that fits. -/
theorem fuel_for_call {fuel : Nat} {dname : List UInt8}
    (hpath : NEWPATH_SIZE ≤ path.length + (fuel + 1))
    (hfits : (join path dname).length < NEWPATH_SIZE) :
    0 < fuel ∧ NEWPATH_SIZE ≤ (join path dname).length + fuel := by
  rw [join, List.length_append, List.length_cons] at hfits ⊢
  omega

theorem counted_of_fuel (fs : FileSystem) {fuel : Nat} {path : List UInt8} (hfuel : 0 < fuel)
    (hpath : NEWPATH_SIZE ≤ path.length + fuel) :
    ∃ out, getFileNum fs fuel path = some out ∧ Counted fs (below fs path) 0 out := by
  induction fuel generalizing path with
  | zero => exact absurd hfuel (Nat.lt_irrefl 0)
  | succ fuel ih =>
      rw [getFileNum]
      cases hopen : fs.opendir path with
      | none => exact ⟨.error .exit, rfl, path, .here path, hopen⟩
      | some listing =>
          have hcall : ∀ ptr ∈ listing, (join path ptr.dName).length < NEWPATH_SIZE →
              ∃ out, getFileNum fs fuel (join path ptr.dName) = some out ∧
                Counted fs (below fs (join path ptr.dName)) 0 out := by
            intro ptr _ hfits
            obtain ⟨hfuel', hpath'⟩ := fuel_for_call hpath hfits
            exact ih hfuel' hpath'
          -- `path` itself is open, and all paths of files are those of its entries
          have hself : Counted fs ⟨{path}, ∅, ∅⟩ 0 (.ok 0) := by
            refine ⟨?_, ?_, Nat.zero_le INT_MAX, ∅, Finset.coe_empty, rfl⟩
            · rintro d rfl
              rw [hopen]
              rfl
            · intro d hd
              exact absurd hd (Set.notMem_empty d)
          obtain ⟨out, hout, hcounted⟩ :=
            counted_entries (Nat.zero_le INT_MAX) hcall (entries_disjoint hopen)
          rw [below_eq hopen]
          exact ⟨out, hout, hself.next hcounted fun q hq => absurd hq (Set.notMem_empty q)⟩

/-! ## Fuel -/

theorem countEntry_congr (h : (join path ptr.dName).length < NEWPATH_SIZE →
    call (join path ptr.dName) = call' (join path ptr.dName)) :
    countEntry call path total ptr = countEntry call' path total ptr := by
  rw [countEntry, countEntry]
  by_cases hfits : (join path ptr.dName).length < NEWPATH_SIZE
  · rw [newpath, if_pos hfits, pure_bind, pure_bind, h hfits]
  · rw [newpath, if_neg hfits]
    rfl

/-- More fuel than the recursion can use changes nothing. -/
theorem getFileNum_fuel (fs : FileSystem) {fuel : Nat} (more : Nat) {path : List UInt8}
    (hfuel : 0 < fuel) (hpath : NEWPATH_SIZE ≤ path.length + fuel) :
    getFileNum fs (fuel + more) path = getFileNum fs fuel path := by
  induction fuel generalizing path with
  | zero => exact absurd hfuel (Nat.lt_irrefl 0)
  | succ fuel ih =>
      rw [Nat.add_right_comm, getFileNum, getFileNum]
      cases hopen : fs.opendir path with
      | none => rfl
      | some listing =>
          have hpass : countEntry (getFileNum fs (fuel + more)) path
              = countEntry (getFileNum fs fuel) path := by
            funext total ptr
            apply countEntry_congr
            intro hfits
            obtain ⟨hfuel', hpath'⟩ := fuel_for_call hpath hfits
            exact ih hfuel' hpath'
          show listing.foldlM _ 0 = listing.foldlM _ 0
          rw [hpass]

end Recursion

/-- **getFileNum.**  On every file system, cyclic or not, the recursion ends,
    `NEWPATH_SIZE` nested calls being enough.  It returns `n` exactly if all
    directories from `path` on can be opened, the paths of those below `path`
    fit into `newpath`, and regular files are found under `n` paths, no more
    than an `int` can count.  A fault is the write of a path that does not fit. -/
theorem getFileNum_counts (fs : FileSystem) (path : List UInt8) :
    ∃ out, (∀ more, getFileNum fs (NEWPATH_SIZE + more) path = some out) ∧
      (∀ n, out = .ok n ↔
        (∀ d, Dir fs path d → (fs.opendir d).isSome) ∧
        (∀ d, Dir fs path d → d ≠ path → d.length < NEWPATH_SIZE) ∧
        n ≤ INT_MAX ∧
        ∃ files : Finset (List UInt8), (∀ q, q ∈ files ↔ IsFile fs path q) ∧ files.card = n) ∧
      ∀ fault, out = .error (.fault fault) →
        fault = .outOfBounds ∧ ∃ d, Dir fs path d ∧ d ≠ path ∧ NEWPATH_SIZE ≤ d.length := by
  have hfuel : 0 < NEWPATH_SIZE := by decide
  have hpath : NEWPATH_SIZE ≤ path.length + NEWPATH_SIZE := Nat.le_add_left _ _
  obtain ⟨out, hout, hcounted⟩ := counted_of_fuel fs hfuel hpath
  refine ⟨out, fun more => (getFileNum_fuel fs more hfuel hpath).trans hout, fun n => ⟨?_, ?_⟩, ?_⟩
  · rintro rfl
    obtain ⟨hopen, hshort, hn, files, hfiles, hcard⟩ := hcounted
    refine ⟨hopen, fun d hd hne => hshort d ⟨hd, hne⟩, hn, files, fun q => ?_, ?_⟩
    · rw [← Finset.mem_coe, hfiles]
      rfl
    · rw [hcard, Nat.zero_add]
  · rintro ⟨hopen, hshort, hn, files, hfiles, rfl⟩
    -- nothing that stops the program is there
    cases out with
    | ok m =>
        obtain ⟨-, -, -, files', hfiles', rfl⟩ := hcounted
        have hsame : files' = files := by
          ext q
          rw [hfiles, ← Finset.mem_coe, hfiles']
          rfl
        rw [hsame, Nat.zero_add]
    | error stop =>
        exfalso
        cases stop with
        | exit =>
            obtain ⟨d, hd, hnone⟩ := hcounted
            have hsome := hopen d hd
            rw [hnone] at hsome
            cases hsome
        | overflow =>
            obtain ⟨more, hmore, hover⟩ := hcounted
            have hle : more.card ≤ files.card :=
              Finset.card_le_card fun q hq => (hfiles q).mpr (hmore hq)
            omega
        | fault fault =>
            obtain ⟨-, d, hd, hlong⟩ := hcounted
            have hfits := hshort d hd.1 hd.2
            omega
  · rintro fault rfl
    obtain ⟨hfault, d, hd, hlong⟩ := hcounted
    exact ⟨hfault, d, hd.1, hd.2, hlong⟩

/-- A directory that is listed in itself as `d`. -/
def cyclic : FileSystem where
  opendir _ := some [⟨ascii "d", .dir⟩]
  nodup := by
    rintro path listing ⟨⟩
    decide
  slash_free := by
    rintro path listing ⟨⟩
    decide

/-- The path of the 128th call does not fit any more. -/
example : getFileNum cyclic NEWPATH_SIZE (ascii "a") = some (.error (.fault .outOfBounds)) := by
  show @Eq (Option (Except Stop Nat)) _ _
  decide +kernel

end WebServer.FileNum
