import Mathlib.Data.List.DropRight
import SetLaws.CommandLine.Directory

/-!
# Writing a file and reading it

A file that can be written at a path is read there again.  When several texts are written at one
path, the last one stays.

Both rest on two facts about folders: no folder is lost when something is put where none is, and
the folders that were made lead along the path that they were made for.
-/

namespace SetLaws
namespace CommandLine

theorem Node.put_put (n a b : Node) (route : Route) :
    (n.put a route).put b route = n.put b route := by
  induction route generalizing n with
  | nil => rfl
  | cons name route ih =>
    rw [put, put, entries, List.lookup_cons_self, Option.getD_some, ih,
      List.filter_cons_of_neg (by simp), List.filter_filter]
    simp only [Bool.and_self]
    rfl

theorem Node.lookup_filter_ne {name other : String} (h : other ≠ name)
    (entries : List (String × Node)) :
    (entries.filter (·.1 ≠ name)).lookup other = entries.lookup other := by
  induction entries with
  | nil => rfl
  | cons p entries ih =>
    by_cases hp : p.1 = name
    · have hother : other ≠ p.1 := hp ▸ h
      rw [List.filter_cons_of_neg (by simpa using hp), List.lookup_cons, ih,
        beq_eq_false_iff_ne.mpr hother]
    · rw [List.filter_cons_of_pos (by simpa using hp), List.lookup_cons, List.lookup_cons, ih]

/-! ## Folders -/

namespace Node

theorem isFolder_cons (n : Node) (name : String) (route : Route) :
    n.isFolder (name :: route) = (n.entries.lookup name).any (·.isFolder route) := by
  rw [isFolder, find?]
  cases n.entries.lookup name <;> rfl

/-- What is no folder holds no folders. -/
theorem isFolder_nil {n : Node} {name : String} {route : Route}
    (h : n.isFolder (name :: route) = true) : n.isFolder [] = true := by
  cases n with
  | file text => exact h
  | folder entries => rfl

theorem isFolder_dropLast {n : Node} {route : Route} (h : n.isFolder route = true) :
    n.isFolder route.dropLast = true := by
  induction route generalizing n with
  | nil => exact h
  | cons name route ih =>
    cases route with
    | nil => exact isFolder_nil h
    | cons next route =>
      rw [isFolder_cons, Option.any_eq_true] at h
      obtain ⟨m, hm, hfolder⟩ := h
      rw [List.dropLast_cons_cons, isFolder_cons, Option.any_eq_true]
      exact ⟨m, hm, ih hfolder⟩

/-- What is put where no folder is takes the place of none. -/
theorem isFolder_put {n : Node} {route : Route} (h : n.isFolder route = false) (new : Node)
    {other : Route} (hother : n.isFolder other = true) :
    (n.put new route).isFolder other = true := by
  induction route generalizing n other with
  | nil =>
    have hroot : n.isFolder [] = true := by
      cases other with
      | nil => exact hother
      | cons name other => exact isFolder_nil hother
    rw [h] at hroot
    cases hroot
  | cons name route ih =>
    cases other with
    | nil => rfl
    | cons first other =>
      rw [isFolder_cons, Option.any_eq_true] at hother
      obtain ⟨m, hm, hfolder⟩ := hother
      rw [isFolder_cons, Option.any_eq_true]
      by_cases hfirst : first = name
      · subst hfirst
        rw [isFolder_cons, hm] at h
        refine ⟨m.put new route, ?_, ih h hfolder⟩
        show List.lookup first ((first, _) :: _) = _
        rw [List.lookup_cons_self, hm, Option.getD_some]
      · refine ⟨m, ?_, hfolder⟩
        show List.lookup first ((name, _) :: _) = _
        rw [List.lookup_cons, beq_eq_false_iff_ne.mpr hfirst]
        exact (lookup_filter_ne hfirst n.entries).trans hm

end Node

namespace Directory

/-- In the other directory relative paths begin at the same place, and all folders are there. -/
structure Keeps (d e : Directory) : Prop where
  place : e.place = d.place
  folders {route : Route} (h : d.isFolder route = true) : e.isFolder route = true

theorem Keeps.refl (d : Directory) : d.Keeps d := ⟨rfl, id⟩

theorem Keeps.trans {d e f : Directory} (hde : d.Keeps e) (hef : e.Keeps f) : d.Keeps f :=
  ⟨hef.place.trans hde.place, fun h => hef.folders (hde.folders h)⟩

theorem Keeps.start_eq {d e : Directory} (h : d.Keeps e) (path : String) :
    e.start path = d.start path := by
  rw [start, start, h.place]

theorem keeps_put {d : Directory} {route : Route} (h : d.isFolder route = false) (n : Node) :
    d.Keeps (d.put route n) :=
  ⟨rfl, Node.isFolder_put h n⟩

theorem isFolder_put_file (d : Directory) (route : Route) (text : String) :
    (d.put route (.file text)).isFolder route = false := by
  rw [isFolder, put, Node.isFolder, Node.find?_put]

theorem isFolder_put_folder (d : Directory) (route : Route) (entries : List (String × Node)) :
    (d.put route (.folder entries)).isFolder route = true := by
  rw [isFolder, put, Node.isFolder, Node.find?_put]

theorem put_put (d : Directory) (route : Route) (a b : Node) :
    (d.put route a).put route b = d.put route b := by
  rw [put, put, put, Node.put_put]

/-! ## The way along a path -/

theorem follow_append (d : Directory) (route : Route) (parts rest : List String) :
    d.follow route (parts ++ rest) = (d.follow route parts).bind (d.follow · rest) := by
  induction parts generalizing route with
  | nil => rfl
  | cons part parts ih =>
    rw [List.cons_append, follow, follow, ih, ih, ih]
    split
    · rfl
    · split
      · rfl
      · split <;> rfl

theorem follow_of_staysInPlace {d : Directory} {route : Route} (h : d.isFolder route = true)
    {parts : List String} (hparts : ∀ part ∈ parts, staysInPlace part = true) :
    d.follow route parts = some route := by
  induction parts with
  | nil => rfl
  | cons part parts ih =>
    obtain ⟨hpart, hrest⟩ := List.forall_mem_cons.mp hparts
    rw [follow, h, hpart]
    exact ih hrest

theorem leadsOn_of_isFileName {name : String} (h : isFileName name = true) :
    staysInPlace name = false ∧ name ≠ ".." := by
  simp only [isFileName, Bool.and_eq_true, Bool.not_eq_true', decide_eq_true_eq] at h
  exact h.1

theorem follow_singleton {d : Directory} {route : Route} (h : d.isFolder route = true)
    {name : String} (hname : isFileName name = true) :
    d.follow route [name] = some (route ++ [name]) := by
  obtain ⟨hstays, hup⟩ := leadsOn_of_isFileName hname
  rw [follow, h, hstays, if_neg hup]
  rfl

theorem Keeps.follow {d e : Directory} (h : d.Keeps e) {route folder : Route}
    {parts : List String} (hfollow : d.follow route parts = some folder) :
    e.follow route parts = some folder := by
  fun_induction Directory.follow d route parts with
  | case1 => exact hfollow
  | case2 => cases hfollow
  | case3 route part parts hroute hstays ih =>
    rw [Bool.not_eq_true', Bool.not_eq_false] at hroute
    rw [Directory.follow, h.folders hroute, hstays]
    exact ih hfollow
  | case4 route parts hroute hstays ih =>
    rw [Bool.not_eq_true', Bool.not_eq_false] at hroute
    rw [Directory.follow, h.folders hroute, if_neg hstays, if_pos rfl]
    exact ih hfollow
  | case5 route part parts hroute hstays hup ih =>
    rw [Bool.not_eq_true', Bool.not_eq_false] at hroute
    rw [Directory.follow, h.folders hroute, if_neg hstays, if_neg hup]
    exact ih hfollow

/-! ## Making folders -/

theorem keeps_makeFolders (d : Directory) (route : Route) (parts : List String) :
    d.Keeps (d.makeFolders route parts).1 := by
  fun_induction makeFolders d route parts with
  | case1 d route => exact .refl d
  | case2 d route part parts hstays ih => exact ih
  | case3 d route parts _ ih => exact ih
  | case4 d route part parts _ _ route' hfolder ih => exact ih
  | case5 => exact .refl _
  | case6 d route part parts _ _ route' hfolder _ ih =>
    exact (keeps_put (Bool.eq_false_iff.mpr hfolder) _).trans ih

theorem keeps_of_makeFolders {d made : Directory} {route : Route} {parts : List String}
    {folder : Option Route} (h : d.makeFolders route parts = (made, folder)) : d.Keeps made := by
  have hkeeps := d.keeps_makeFolders route parts
  rw [h] at hkeeps
  exact hkeeps

/-- The folders that were made can be followed from the folder where the path began. -/
theorem follow_makeFolders {d made : Directory} {route folder : Route} {parts : List String}
    (h : d.makeFolders route parts = (made, some folder)) (hroute : d.isFolder route = true) :
    made.isFolder folder = true ∧ made.follow route parts = some folder := by
  have hkeeps := keeps_of_makeFolders h
  fun_induction makeFolders d route parts with
  | case1 d route =>
    cases h
    exact ⟨hroute, rfl⟩
  | case2 d route part parts hstays ih =>
    rw [follow, hkeeps.folders hroute, hstays]
    exact ih h hroute hkeeps
  | case3 d route parts hstays ih =>
    rw [follow, hkeeps.folders hroute, if_neg hstays, if_pos rfl]
    exact ih h (Node.isFolder_dropLast hroute) hkeeps
  | case4 d route part parts hstays hup route' hfolder ih =>
    rw [follow, hkeeps.folders hroute, if_neg hstays, if_neg hup]
    exact ih h hfolder hkeeps
  | case5 => cases h
  | case6 d route part parts hstays hup route' hfolder _ ih =>
    have hput := d.isFolder_put_folder route' []
    rw [follow, hkeeps.folders hroute, if_neg hstays, if_neg hup]
    exact ih h hput (keeps_of_makeFolders h)

/-- Making the same folders once more changes nothing, also where a file has been added in the
meantime. -/
theorem makeFolders_again {d made e : Directory} {route : Route} {parts : List String}
    {folder : Option Route} (h : d.makeFolders route parts = (made, folder))
    (hkeeps : made.Keeps e) (hsame : folder = none → e = made) :
    e.makeFolders route parts = (e, folder) := by
  fun_induction makeFolders d route parts with
  | case1 d route =>
    cases h
    rfl
  | case2 d route part parts hstays ih =>
    rw [makeFolders, if_pos hstays]
    exact ih h
  | case3 d route parts hstays ih =>
    rw [makeFolders, if_neg hstays, if_pos rfl]
    exact ih h
  | case4 d route part parts hstays hup route' hfolder ih =>
    have hthere : e.isFolder route' = true :=
      hkeeps.folders ((keeps_of_makeFolders h).folders hfolder)
    rw [makeFolders, if_neg hstays, if_neg hup, if_pos hthere]
    exact ih h
  | case5 d route part parts hstays hup route' hfolder hfails =>
    cases h
    obtain rfl := hsame rfl
    rw [makeFolders, if_neg hstays, if_neg hup, if_neg hfolder, if_pos hfails]
  | case6 d route part parts hstays hup route' hfolder hfails ih =>
    have hput := d.isFolder_put_folder route' []
    have hthere : e.isFolder route' = true := hkeeps.folders ((keeps_of_makeFolders h).folders hput)
    rw [makeFolders, if_neg hstays, if_neg hup, if_pos hthere]
    exact ih h

/-! ## The parts of a path -/

/-- What is dropped at the end of a path does not lead on. -/
theorem exists_dropEnd_append (parts : List String) :
    ∃ dropped, parts = dropEnd parts ++ dropped ∧ ∀ part ∈ dropped, staysInPlace part = true := by
  unfold dropEnd
  split
  · next parts =>
    refine ⟨parts.rtakeWhile staysInPlace, ?_, fun part => List.mem_rtakeWhile_imp⟩
    exact congrArg _ List.rdropWhile_append_rtakeWhile.symm
  · exact ⟨parts.rtakeWhile staysInPlace, List.rdropWhile_append_rtakeWhile.symm,
      fun part => List.mem_rtakeWhile_imp⟩

theorem dropEnd_concat (parts : List String) {name : String} (h : staysInPlace name = false) :
    dropEnd (parts ++ [name]) = parts ++ [name] := by
  have hname : ¬ staysInPlace name = true := Bool.eq_false_iff.mp h
  unfold dropEnd
  split
  · next rest hparts =>
    cases parts with
    | nil =>
      cases hparts
      cases h
    | cons part parts =>
      cases hparts
      exact congrArg _ (List.rdropWhile_concat_neg staysInPlace parts name hname)
  · exact List.rdropWhile_concat_neg staysInPlace parts name hname

/-- A file can be written at a path that has these parts: with the folders that are missing the
directory is `made`, `folder` is the one that the path names, and the last part is a name for a file
that no folder has. -/
structure Writable (d : Directory) (path : String) (parts : List String) (made : Directory)
    (folder : Route) : Prop where
  start : d.isFolder (d.start path) = true
  parts_eq : pathParts path = some parts
  size : path.utf8ByteSize ≤ maxPathSize
  size_parent : ("/".intercalate (parentParts parts)).utf8ByteSize ≤ maxPathSize
  folders : d.makeFolders (d.start path) (parentParts parts) = (made, some folder)
  name : isFileName (parts.getLast?.getD "") = true
  free : made.isFolder (folder ++ [parts.getLast?.getD ""]) = false

def CanWrite (d : Directory) (path : String) : Prop :=
  ∃ parts made folder, d.Writable path parts made folder

theorem Writable.write_eq {d made : Directory} {path : String} {parts : List String}
    {folder : Route} (h : d.Writable path parts made folder) (text : String) :
    d.write path text = made.put (folder ++ [parts.getLast?.getD ""]) (.file text) := by
  simp only [write, h.parts_eq, h.folders, if_neg (Nat.not_lt.mpr h.size_parent), h.name, h.free,
    decide_eq_false (Nat.not_lt.mpr h.size), Bool.not_true, Bool.or_self, Bool.false_eq_true,
    if_false]

/-- The path of a file that can be written leads on from the folders to the file. -/
theorem Writable.follow_eq {d made e : Directory} {path : String} {parts : List String}
    {folder : Route} (h : d.Writable path parts made folder) (hkeeps : made.Keeps e) :
    e.follow (d.start path) parts = some (folder ++ [parts.getLast?.getD ""]) := by
  obtain ⟨hfolder, hfollow⟩ := follow_makeFolders h.folders h.start
  have hname := h.name
  cases hlast : parts.getLast? with
  | none =>
    rw [hlast] at hname
    cases hname
  | some name =>
    rw [hlast, Option.getD_some] at hname
    obtain ⟨front, rfl⟩ := List.getLast?_eq_some_iff.mp hlast
    rw [parentParts, dropEnd_concat front (leadsOn_of_isFileName hname).1,
      List.dropLast_concat] at hfollow
    -- Between the folders and the name the path may stay in place.
    obtain ⟨dropped, hfront, hstays⟩ := exists_dropEnd_append front
    have hparent : e.follow (d.start path) front = some folder := by
      rw [hfront, follow_append, hkeeps.follow hfollow]
      exact follow_of_staysInPlace (hkeeps.folders hfolder) hstays
    rw [follow_append, hparent]
    exact follow_singleton (hkeeps.folders hfolder) hname

/-- A file is read as it was written. -/
theorem read_write {d : Directory} {path : String} (h : d.CanWrite path) (text : String) :
    (d.write path text).read path = some text := by
  obtain ⟨parts, made, folder, h⟩ := h
  have hkeeps : made.Keeps _ := keeps_put h.free (.file text)
  have hstart := ((keeps_of_makeFolders h.folders).trans hkeeps).start_eq path
  rw [h.write_eq, read, if_neg (Nat.not_lt.mpr h.size), h.parts_eq, Option.bind_some, hstart,
    h.follow_eq hkeeps, Option.bind_some, file?_put]

/-- Of two texts that are written at one path the second one stays, and with it every folder. -/
theorem write_write (d : Directory) (path first second : String) :
    (d.write path first).write path second = d.write path second := by
  cases hparts : pathParts path with
  | none => simp only [write, hparts]
  | some parts =>
    by_cases hparent : maxPathSize < ("/".intercalate (parentParts parts)).utf8ByteSize
    · simp only [write, hparts, if_pos hparent]
    · cases hmade : d.makeFolders (d.start path) (parentParts parts) with
      | mk made folder =>
        have hagain := fun e => @makeFolders_again _ _ e _ _ _ hmade
        have hstart : made.start path = d.start path := (keeps_of_makeFolders hmade).start_eq path
        cases folder with
        | none =>
          have hsecond := hagain made (.refl made) fun _ => rfl
          simp only [write, hparts, if_neg hparent, hmade, hstart, hsecond]
        | some folder =>
          cases hfails : decide (maxPathSize < path.utf8ByteSize) ||
              !isFileName (parts.getLast?.getD "") ||
              made.isFolder (folder ++ [parts.getLast?.getD ""]) with
          | true =>
            have hsecond := hagain made (.refl made) nofun
            simp only [write, hparts, if_neg hparent, hmade, hstart, hsecond, hfails, if_true]
          | false =>
            obtain ⟨hname, hfree⟩ := Bool.or_eq_false_iff.mp hfails
            have hkeeps := keeps_put hfree (.file first)
            have hsecond := hagain _ hkeeps nofun
            simp only [write, hparts, if_neg hparent, hmade, hkeeps.start_eq, hstart, hsecond,
              hname, hfree, isFolder_put_file, put_put, Bool.or_self, Bool.false_eq_true, if_false]

/-- Of all texts that are written at one path, one after the other, the last one stays. -/
theorem foldl_write {texts : List String} {last : String} (h : texts.getLast? = some last)
    (d : Directory) (path : String) :
    texts.foldl (fun d text => d.write path text) d = d.write path last := by
  obtain ⟨front, rfl⟩ := List.getLast?_eq_some_iff.mp h
  clear h
  induction front generalizing d with
  | nil => rfl
  | cons text front ih => rw [List.cons_append, List.foldl_cons, ih, write_write]

end Directory
end CommandLine
end SetLaws
