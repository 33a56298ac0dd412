/-
What a run of the command leaves behind.

A run reads one file and writes at most one. Whatever the host has beside the files of the command,
a run that fails changes none of them, and a run that changes something changes the file it was
asked to write: there is the listing of the program in the input file, and the path that named it
reads back that listing.

Reading back is not immediate. A path is walked through the directories of the tree, and the tree
has changed. The walk is the same one because writing makes no directories: the new file stands in a
directory that was there, and the walk could not have gone through it.
-/
import Pulse.Command.Compile
import Mathlib.Data.List.Basic

set_option autoImplicit false

namespace Pulse

/-- Two steps succeed when both do. Every step of a walk and of a run is of this form. -/
theorem bind_eq_ok {ε α β : Type} {x : Except ε α} {f : α → Except ε β} {b : β} :
    x.bind f = .ok b ↔ ∃ a, x = .ok a ∧ f a = .ok b := by
  cases x <;> simp [Except.bind]

/-! ## A tree with one file more -/

namespace FileTree

variable {t : FileTree} {host : Host} {place names : List String} {name : String}
  {content : ByteArray}

/-- Dropping the file at one place drops no other one. -/
theorem lookup_filter_ne {files : List (List String × ByteArray)} {x : List String}
    (hx : x ≠ place) : (files.filter (·.1 ≠ place)).lookup x = files.lookup x := by
  induction files with
  | nil => rfl
  | cons f files ih =>
    obtain ⟨y, bytes⟩ := f
    rw [List.filter_cons, List.lookup_cons]
    split
    · rw [List.lookup_cons, ih]
    · rename_i hy
      obtain rfl : y = place := by simpa using hy
      rw [beq_false_of_ne hx]
      exact ih

/-- The dropped file is not found any more. -/
theorem lookup_filter_self {files : List (List String × ByteArray)} :
    (files.filter (·.1 ≠ place)).lookup place = none := by
  rw [List.lookup_eq_none_iff]
  intro f hf
  have hne : f.1 ≠ place := of_decide_eq_true (List.mem_filter.mp hf).2
  exact bne_iff_ne.mpr hne.symm

/-- Writing replaces the file at one place. -/
theorem file?_put (t : FileTree) (place : List String) (content : ByteArray) (x : List String) :
    (t.put place content).file? x = if x = place then some content else t.file? x := by
  unfold file? put
  rw [List.lookup_append, List.lookup_cons]
  by_cases hx : x = place
  · rw [if_pos hx, hx, lookup_filter_self, beq_self_eq_true]
    rfl
  · rw [if_neg hx, lookup_filter_ne hx, beq_false_of_ne hx]
    exact Option.or_none

/-- A directory is the root, one that is there by itself or on the way to one, or one on the way to
a file. -/
theorem isDirectory_iff {x : List String} :
    t.isDirectory x ↔ x = [] ∨ (∃ d ∈ t.directories, x <+: d) ∨
      ∃ f ∈ t.files, x <+: f.1 ∧ x ≠ f.1 := by
  simp [isDirectory, or_assoc]

/-- What is on the way to a directory is a directory. -/
theorem isDirectory_of_prefix {x y : List String} (h : t.isDirectory y) (hxy : x <+: y) :
    t.isDirectory x := by
  rw [isDirectory_iff] at h ⊢
  rcases h with rfl | ⟨d, hd, hy⟩ | ⟨f, hf, hy, hne⟩
  · exact .inl (List.prefix_nil.mp hxy)
  · exact .inr (.inl ⟨d, hd, hxy.trans hy⟩)
  · refine .inr (.inr ⟨f, hf, hxy.trans hy, ?_⟩)
    rintro rfl
    exact hne (hy.eq_of_length_le hxy.length_le)

/-- A file that is written into a directory makes no other directory. The directories on the way to
it were there before. -/
theorem isDirectory_put (h : t.isDirectory names) (x : List String) :
    (t.put (names ++ [name]) content).isDirectory x = t.isDirectory x := by
  rw [Bool.eq_iff_iff]
  constructor
  · intro hx
    rw [isDirectory_iff] at hx
    rcases hx with hx | hx | ⟨f, hf, hpre, hne⟩
    · exact isDirectory_iff.mpr (.inl hx)
    · exact isDirectory_iff.mpr (.inr (.inl hx))
    · rcases List.mem_append.mp hf with hf | hf
      · exact isDirectory_iff.mpr (.inr (.inr ⟨f, (List.mem_filter.mp hf).1, hpre, hne⟩))
      · obtain rfl := List.mem_singleton.mp hf
        exact isDirectory_of_prefix h ((List.prefix_concat_iff.mp hpre).resolve_left hne)
  · intro hx
    rw [isDirectory_iff] at hx ⊢
    rcases hx with hx | hx | ⟨f, hf, hpre, hne⟩
    · exact .inl hx
    · exact .inr (.inl hx)
    · refine .inr (.inr ?_)
      by_cases hplace : f.1 = names ++ [name]
      · exact ⟨(names ++ [name], content), List.mem_append_right _ (List.mem_singleton_self _),
          hplace ▸ hpre, hplace ▸ hne⟩
      · refine ⟨f, List.mem_append_left _ (List.mem_filter.mpr ⟨hf, ?_⟩), hpre, hne⟩
        simpa using hplace

/-! ## Walks -/

/-- A place outside, or a directory of the tree. -/
def Stands (t : FileTree) : Place → Prop
  | .inside names => t.isDirectory names
  | .outside _ => True

/-- The directory above one is a directory. -/
theorem stands_up {p : Place} (h : t.Stands p) : t.Stands (host.up p) := by
  unfold Host.up
  split
  · trivial
  · exact isDirectory_of_prefix h (List.dropLast_prefix _)
  · trivial

/-- A walk that enters the tree from outside does so at its root. Outside of the tree all that is
known of a place is what the system says, so nothing is asked of it there. -/
theorem stands_of_enter_outside {p : Place} (h : host.enter names = .ok p) : t.Stands p := by
  unfold Host.enter at h
  split at h
  · cases h
  · split at h
    · cases h
      exact isDirectory_iff.mpr (.inl rfl)
    · split at h
      · cases h
        trivial
      · split at h
        · cases h
          trivial
        · cases h

/-- A step of a walk that succeeds. It stays, it goes up, or it goes on to what the component names:
a directory of the tree, or a place outside that the host decides about. -/
theorem enter_eq_ok {p q : Place} {component : String} :
    t.enter host p component = .ok q ↔
      component = "." ∧ q = p ∨ component ≠ "." ∧ component = ".." ∧ q = host.up p ∨
      component ≠ "." ∧ component ≠ ".." ∧ component.utf8ByteSize ≤ maxName ∧
        ((∃ here, p = .inside here ∧ t.file? (here ++ [component]) = none ∧
            t.isDirectory (here ++ [component]) ∧ q = .inside (here ++ [component])) ∨
          ∃ here, p = .outside here ∧ host.enter (here ++ [component]) = .ok q) := by
  unfold enter
  by_cases hdot : component = "."
  · simp [hdot, @eq_comm _ q]
  by_cases hup : component = ".."
  · simp [hup, @eq_comm _ q]
  by_cases hlong : maxName < component.utf8ByteSize
  · simp [hdot, hup, hlong, Nat.not_le.mpr hlong]
  cases p with
  | outside here => simp [hdot, hup, hlong, Nat.not_lt.mp hlong]
  | inside here =>
    cases hfile : t.file? (here ++ [component]) <;>
      cases hdirectory : t.isDirectory (here ++ [component]) <;>
      simp [hdot, hup, hlong, Nat.not_lt.mp hlong, hfile, hdirectory, @eq_comm _ q]

/-- A step of a walk ends at a directory. A name that is no directory ends the walk with an error
instead, and so does one that is too long. -/
theorem stands_of_enter {p q : Place} {component : String} (h : t.Stands p)
    (hq : t.enter host p component = .ok q) : t.Stands q := by
  rcases enter_eq_ok.mp hq with ⟨-, rfl⟩ | ⟨-, -, rfl⟩ |
    ⟨-, -, -, ⟨here, -, -, hdirectory, rfl⟩ | ⟨here, -, hq⟩⟩
  · exact h
  · exact stands_up h
  · exact hdirectory
  · exact stands_of_enter_outside hq

/-- A walk ends at a directory. -/
theorem stands_of_walk {p q : Place} {components : List String} (h : t.Stands p)
    (hq : components.foldlM (t.enter host) p = .ok q) : t.Stands q := by
  induction components generalizing p with
  | nil =>
    cases hq
    exact h
  | cons component components ih =>
    obtain ⟨p', hstep, hrest⟩ := bind_eq_ok.mp hq
    exact ih (stands_of_enter h hstep) hrest

/-- A step of a walk goes to the same place when a file was written that is not on its way. A
directory stays one, and a name that leads nowhere is not on the way of a walk that succeeds. -/
theorem enter_put {p q : Place} {component : String} (h : t.isDirectory names)
    (hfile : t.isDirectory (names ++ [name]) = false) (hq : t.enter host p component = .ok q) :
    (t.put (names ++ [name]) content).enter host p component = .ok q := by
  rw [enter_eq_ok] at hq ⊢
  rcases hq with hstay | hup | ⟨hdot, hdots, hshort, ⟨here, hp, hnone, hdirectory, hq⟩ | houtside⟩
  · exact .inl hstay
  · exact .inr (.inl hup)
  · -- The step goes into a directory, which is not what was written.
    have hne : here ++ [component] ≠ names ++ [name] := by
      intro heq
      rw [heq, hfile] at hdirectory
      cases hdirectory
    refine .inr (.inr ⟨hdot, hdots, hshort, .inl ⟨here, hp, ?_, ?_, hq⟩⟩)
    · rw [file?_put, if_neg hne, hnone]
    · rw [isDirectory_put h, hdirectory]
  · exact .inr (.inr ⟨hdot, hdots, hshort, .inr houtside⟩)

/-- A walk that succeeds goes the same way when a file was written that is not on its way. -/
theorem walk_put {p q : Place} {components : List String} (h : t.isDirectory names)
    (hfile : t.isDirectory (names ++ [name]) = false)
    (hq : components.foldlM (t.enter host) p = .ok q) :
    components.foldlM ((t.put (names ++ [name]) content).enter host) p = .ok q := by
  induction components generalizing p with
  | nil => exact hq
  | cons component components ih =>
    obtain ⟨p', hstep, hrest⟩ := bind_eq_ok.mp hq
    exact bind_eq_ok.mpr ⟨p', enter_put h hfile hstep, ih hrest⟩

/-- Taking a path apart is a walk along all of its components but the last. Empty components name
nothing. A path that is empty or too long is refused before the walk, and a slash in front decides
where the walk starts. -/
theorem locate_eq_ok {path : String} {r : Place × Option String × Bool} :
    t.locate host path = .ok r ↔ path.utf8ByteSize ≠ 0 ∧ path.utf8ByteSize < maxPath ∧
      ∃ parent, ((path.splitOn "/").filter (· ≠ "")).dropLast.foldlM (t.enter host)
          (if path.toList.head? = some '/' then .outside [] else .inside []) = .ok parent ∧
        r = (parent, ((path.splitOn "/").filter (· ≠ "")).getLast?,
          decide (path.toList.getLast? = some '/')) := by
  unfold locate
  split
  · rename_i hempty
    simp [hempty]
  · rename_i hempty
    split
    · rename_i hlong
      simp [Nat.not_lt.mpr hlong]
    · rename_i hlong
      refine bind_eq_ok.trans ⟨?_, ?_⟩
      · rintro ⟨parent, hwalk, hr⟩
        exact ⟨hempty, Nat.not_le.mp hlong, parent, hwalk, (Except.ok.inj hr).symm⟩
      · rintro ⟨-, -, parent, hwalk, rfl⟩
        exact ⟨parent, hwalk, rfl⟩

/-- The last component of a path is looked for in a directory. -/
theorem stands_of_locate {path : String} {p : Place} {last : Option String} {slash : Bool}
    (h : t.locate host path = .ok (p, last, slash)) : t.Stands p := by
  obtain ⟨-, -, parent, hwalk, heq⟩ := locate_eq_ok.mp h
  obtain rfl : p = parent := congrArg Prod.fst heq
  refine stands_of_walk ?_ hwalk
  split
  · trivial
  · exact isDirectory_iff.mpr (.inl rfl)

/-- A path is taken apart as before when a file was written that is not on its way. -/
theorem locate_put {path : String} {r : Place × Option String × Bool} (h : t.isDirectory names)
    (hfile : t.isDirectory (names ++ [name]) = false) (hr : t.locate host path = .ok r) :
    (t.put (names ++ [name]) content).locate host path = .ok r := by
  obtain ⟨hempty, hlong, parent, hwalk, heq⟩ := locate_eq_ok.mp hr
  exact locate_eq_ok.mpr ⟨hempty, hlong, parent, walk_put h hfile hwalk, heq⟩

/-- A path that leads to a file of the tree names it in one of the directories there. The last
component is a name there: not the directory itself, not the one above, and not closed by a
slash. -/
theorem destination_eq_file {path : String} (h : t.destination host path = .ok (.file place)) :
    ∃ names name, t.locate host path = .ok (.inside names, some name, false) ∧ name ≠ "." ∧
      name ≠ ".." ∧ name.utf8ByteSize ≤ maxName ∧ t.isDirectory place = false ∧
      place = names ++ [name] := by
  obtain ⟨⟨parent, last, slash⟩, hlocate, hplace⟩ := bind_eq_ok.mp h
  cases last with
  | none => cases hplace
  | some name =>
    dsimp only at hplace
    split at hplace
    · cases hplace
    · rename_i hname
      simp only [not_or, Bool.not_eq_true] at hname
      obtain ⟨hdot, hup, rfl⟩ := hname
      split at hplace
      · cases hplace
      · rename_i hlong
        cases parent with
        -- What is found outside of the tree is none of its files.
        | outside names =>
          dsimp only at hplace
          split at hplace
          · cases hplace
          · split at hplace
            · cases hplace
            · obtain ⟨_, -, hplace⟩ := bind_eq_ok.mp hplace
              cases hplace
        | inside names =>
          dsimp only at hplace
          split at hplace
          · cases hplace
          · rename_i hfile
            cases hplace
            exact ⟨names, name, hlocate, hdot, hup, Nat.not_lt.mp hlong, by simpa using hfile, rfl⟩

/-- **What is written is read back.** A path that is written to leads to a file of the tree, and it
leads there again when it is read. -/
theorem read_put {path : String} (h : t.destination host path = .ok (.file place)) :
    (t.put place content).read host path = .ok content := by
  obtain ⟨names, name, hlocate, hdot, hup, hlong, hfile, rfl⟩ := destination_eq_file h
  have hlocate' : (t.put (names ++ [name]) content).locate host path = _ :=
    locate_put (stands_of_locate hlocate) hfile hlocate
  refine bind_eq_ok.mpr ⟨_, hlocate', ?_⟩
  dsimp only
  rw [if_neg (not_or.mpr ⟨hdot, hup⟩), if_neg (Nat.not_lt.mpr hlong), file?_put, if_pos rfl]
  rfl

end FileTree

/-! ## Runs -/

namespace Command

variable {host : Host} {files : FileTree} {o : Options} {path text source : String}

/-- What is written is the listing of a program without diagnostics, and it is asked for. A listing
goes nowhere but to the path that was given, and on the way to it every stage of the compiler has
succeeded (`run`). -/
theorem planSource_eq_write (h : planSource o source = .write path text) :
    o.output = some path ∧ ∃ a asm, (Compilation.ofSource source).result = .ok a ∧
      Code.generate a = .ok asm ∧ text = asm.listing := by
  unfold planSource at h
  split at h
  · split at h <;> cases h
  · cases h
  · rename_i a ha
    split at h
    · split at h
      · rename_i asm hasm
        unfold planCode at h
        split at h
        · rename_i hstage
          split at h
          · rename_i out hout
            cases h
            refine ⟨?_, a, asm, ha, hasm, rfl⟩
            -- A listing has no place of its own, so there is one only if it was given.
            unfold Options.outputPath at hout
            split at hout
            · rename_i hgiven
              rw [hgiven, hout]
            · rw [hstage] at hout
              cases hout
          · cases h
        · cases h
      · cases h
    · cases h

/-- Where something is written, the input file was read and is text. An input that cannot be read,
or that is no text, ends the command before the compiler starts. -/
theorem plan_eq_write {content : Except FileError ByteArray}
    (h : plan o content = .write path text) : ∃ bytes source, content = .ok bytes ∧
      String.fromUTF8? bytes = some source ∧ planSource o source = .write path text := by
  unfold plan at h
  split at h
  · cases h
  · rename_i bytes
    split at h
    · rename_i source hsource
      exact ⟨bytes, source, rfl, hsource, h⟩
    · cases h

/-- A text that is delivered changes the file that the path leads to, or none. A path to a device or
to a place outside of the tree takes the text without a change to the tree. -/
theorem deliver_cases (host : Host) (files : FileTree) (path text : String) :
    (deliver host files path text).1 = files ∨ ∃ place,
      files.destination host path = .ok (.file place) ∧
      deliver host files path text = (files.put place text.toUTF8, .success "") := by
  unfold deliver
  cases files.destination host path with
  | error e => exact .inl rfl
  | ok destination =>
    cases destination with
    | file place => exact .inr ⟨place, rfl, rfl⟩
    | elsewhere => exact .inl rfl
    | device d => cases d <;> exact .inl rfl

/-- A run that does not deliver a text changes nothing. This holds of wrong arguments, of an input
that is not there, and of every error in the source. -/
theorem runOn_cases (host : Host) (files : FileTree) (args : List String) :
    (runOn host files args).1 = files ∨ ∃ o path text, Options.parse .standard args = .ok o ∧
      plan o (files.read host o.input) = .write path text ∧
      runOn host files args = deliver host files path text := by
  unfold runOn
  cases Options.parse .standard args with
  | error e => exact .inl rfl
  | ok o =>
    dsimp only
    cases hplan : plan o (files.read host o.input) with
    | done report => exact .inl rfl
    | write path text => exact .inr ⟨o, path, text, rfl, hplan, rfl⟩

/-- **A run changes the file that it is asked to write, and no other.** Where a run changes the
files of the command, on whatever host, it succeeds and prints nothing. The input is the text of a
program without diagnostics, an output was asked for, and this path is read as the listing of the
program from then on. All other files are as they were. -/
theorem runOn_changes (host : Host) (files : FileTree) (args : List String)
    (h : (runOn host files args).1 ≠ files) :
    ∃ o bytes source a asm path place, Options.parse .standard args = .ok o ∧
      files.read host o.input = .ok bytes ∧ String.fromUTF8? bytes = some source ∧
      (Compilation.ofSource source).result = .ok a ∧ Code.generate a = .ok asm ∧
      o.output = some path ∧ files.destination host path = .ok (.file place) ∧
      (runOn host files args).2 = .success "" ∧
      (runOn host files args).1.read host path = .ok asm.listing.toUTF8 ∧
      ∀ x, x ≠ place → (runOn host files args).1.file? x = files.file? x := by
  obtain ⟨o, path, text, ho, hplan, hrun⟩ := (runOn_cases host files args).resolve_left h
  obtain ⟨bytes, source, hbytes, hsource, hplan⟩ := plan_eq_write hplan
  obtain ⟨hpath, a, asm, ha, hasm, rfl⟩ := planSource_eq_write hplan
  rw [hrun] at h ⊢
  obtain ⟨place, hplace, hput⟩ := (deliver_cases host files path asm.listing).resolve_left h
  refine ⟨o, bytes, source, a, asm, path, place, ho, hbytes, hsource, ha, hasm, hpath, hplace, ?_⟩
  rw [hput]
  refine ⟨rfl, FileTree.read_put hplace, fun x hx => ?_⟩
  rw [FileTree.file?_put, if_neg hx]

/-- A run that fails changes nothing. -/
theorem runOn_failed (host : Host) (files : FileTree) (args : List String)
    (h : (runOn host files args).2.status ≠ 0) : (runOn host files args).1 = files := by
  by_contra hne
  obtain ⟨_, _, _, _, _, _, _, -, -, -, -, -, -, -, hreport, -⟩ := runOn_changes host files args hne
  rw [hreport] at h
  exact h rfl

end Command

end Pulse
