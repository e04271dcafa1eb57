import Mathlib.Data.List.TakeWhile
import StackMaps.Files.Path
import StackMaps.Proofs.Name

/-! The class file of a class lies below the directory that it is looked for in: its path leads down
through a directory for each package, and other classes have other files. -/

namespace StackMaps

namespace Path

variable {p q : Path} {ss front rest idle : List (List Char)} {s first name : List Char}

/-- A segment that names an entry of a directory. -/
structure IsEntry (s : List Char) : Prop where
  written : s ≠ []
  notCurrent : s ≠ ['.']
  notParent : s ≠ ['.', '.']
  single : '/' ∉ s

/-- Segments as names of entries, each of them in the one before it. -/
def entries (ss : List (List Char)) : List PathComponent :=
  ss.map fun s => .named (String.ofList s)

/-- A path leads down from a directory: behind what the directory consists of come names of entries,
one or more. -/
def IsBelow (p directory : Path) : Prop :=
  ∃ ss, ss ≠ [] ∧ (∀ s ∈ ss, IsEntry s) ∧ p.components = directory.components ++ entries ss

theorem IsEntry.isIdle_eq (entry : IsEntry s) : isIdle s = false := by
  simp [isIdle, entry.written, entry.notCurrent]

theorem filterMap_component? (named : ∀ s ∈ ss, IsEntry s) : ss.filterMap component? = entries ss := by
  induction ss with
  | nil => rfl
  | cons s ss ih =>
    obtain ⟨own, named⟩ := List.forall_mem_cons.1 named
    have component : component? s = some (.named (String.ofList s)) := by
      rw [component?, own.isIdle_eq, if_neg Bool.false_ne_true, if_neg own.notParent]
    rw [List.filterMap_cons, component, ih named]
    rfl

theorem filterMap_component?_idle (silent : ∀ s ∈ idle, isIdle s = true) :
    idle.filterMap component? = [] := by
  rw [List.filterMap_eq_nil_iff]
  exact fun s there => if_pos (silent s there)

theorem components_of_segments (split : p.segments = first :: rest) :
    p.components = (leading? first rest).toList ++ rest.filterMap component? := by
  rw [components, split]

theorem components_of_not_idle (split : p.segments = first :: rest) (counts : isIdle first = false) :
    p.components = p.segments.filterMap component? := by
  have leads : leading? first rest = component? first := by
    simp only [isIdle, Bool.or_eq_false_iff, beq_eq_false_iff_ne] at counts
    rw [leading?, if_neg counts.1, if_neg counts.2]
  rw [components_of_segments split, leads, split, List.filterMap_cons]
  cases component? first <;> rfl

theorem leading?_congr (more : first = [] → front ≠ []) (more' : first = [] → rest ≠ []) :
    leading? first front = leading? first rest := by
  unfold leading?
  by_cases empty : first = []
  · simp [empty, more empty, more' empty]
  · simp [empty]

theorem components_append (first : List Char) (front idle : List (List Char))
    (before : p.segments = first :: (front ++ idle))
    (after : q.segments = first :: (front ++ rest)) (silent : ∀ s ∈ idle, isIdle s = true)
    (some : rest ≠ []) (more : first = [] → front ++ idle ≠ []) :
    q.components = p.components ++ rest.filterMap component? := by
  have leads : leading? first (front ++ rest) = leading? first (front ++ idle) :=
    leading?_congr (fun _ => List.append_ne_nil_of_right_ne_nil front some) more
  rw [components_of_segments before, components_of_segments after, leads, List.filterMap_append,
    List.filterMap_append, filterMap_component?_idle silent, List.append_nil, List.append_assoc]

theorem segments_of_text {cs : List Char} (text : p.text.toList = cs) :
    p.segments = cs.splitOn '/' := by
  rw [segments, segments_eq, text]

theorem segments_of_slash {cs : List Char} (text : p.text.toList = cs ++ '/' :: q.text.toList) :
    p.segments = cs.splitOn '/' ++ q.segments := by
  rw [segments_of_text text, List.splitOn_append_cons_self, segments_of_text rfl]

theorem isAbsolute_eq_false (split : q.segments = first :: rest) (counts : isIdle first = false) :
    q.isAbsolute = false := by
  cases text : q.text.toList with
  | nil => simp [isAbsolute, text]
  | cons c cs =>
    by_cases slash : c = '/'
    · subst slash
      rw [segments, text, segments_slash] at split
      cases split
      cases counts
    · simpa [isAbsolute, text] using slash

theorem components_join (split : q.segments = first :: rest) (counts : isIdle first = false) :
    (p.join q).components = p.components ++ q.components := by
  have some : q.segments ≠ [] := by simp [split]
  rw [components_of_not_idle split counts, join, if_neg (by simp [isAbsolute_eq_false split counts])]
  obtain text | ⟨cs, c, text⟩ := List.eq_nil_or_concat p.text.toList
  · have nothing : p.components = [] := components_of_segments (segments_of_text text)
    have whole : (⟨p.text ++ q.text⟩ : Path).segments = q.segments := by
      rw [segments, String.toList_append, text]
      rfl
    simp only [text, List.getLast?_nil, nothing, List.nil_append]
    rw [components_of_not_idle (whole.trans split) counts, whole]
  · rw [List.concat_eq_append] at text
    simp only [text, List.getLast?_concat]
    split
    next none => cases none
    next slash =>
      -- The last segment in front is empty, and the others come before what is appended.
      cases slash
      obtain ⟨first, front, before⟩ := List.exists_cons_of_ne_nil (List.splitOn_ne_nil '/' cs)
      refine components_append first front [[]] ?_ ?_ (by simp [isIdle]) some (by simp)
      · rw [segments_of_text text, List.splitOn_append_cons_self, before]
        rfl
      · rw [segments_of_slash (show _ = cs ++ '/' :: q.text.toList by simp [text]), before]
        rfl
    next =>
      obtain ⟨first, front, before⟩ := List.exists_cons_of_ne_nil
        (List.splitOn_ne_nil '/' p.text.toList)
      refine components_append first front [] ?_ ?_ nofun some ?_
      · rw [segments_of_text rfl, before, List.append_nil]
      · rw [segments_of_slash (show _ = p.text.toList ++ '/' :: q.text.toList by simp), before]
        rfl
      · -- A text that is one empty segment is empty.
        rintro rfl alone
        rw [List.append_nil] at alone
        subst alone
        have written : ['/'].intercalate (p.text.toList.splitOn '/') = p.text.toList :=
          List.intercalate_splitOn '/'
        rw [before, text] at written
        simp at written

theorem intercalate_concat (some : front ≠ []) (s : List Char) :
    ['/'].intercalate (front ++ [s]) = ['/'].intercalate front ++ '/' :: s := by
  induction front with
  | nil => exact absurd rfl some
  | cons t front ih =>
    cases front with
    | nil => simp [List.intercalate_cons_of_ne_nil]
    | cons u front =>
      rw [List.cons_append, List.intercalate_cons_of_ne_nil (by simp), ih (List.cons_ne_nil u front),
        List.intercalate_cons_of_ne_nil (List.cons_ne_nil u front), List.append_assoc]
      simp

theorem intercalate_append (front : List (List Char)) (s t : List Char) :
    ['/'].intercalate (front ++ [s ++ t]) = ['/'].intercalate (front ++ [s]) ++ t := by
  cases front with
  | nil => simp
  | cons u front =>
    rw [intercalate_concat (List.cons_ne_nil u front), intercalate_concat (List.cons_ne_nil u front)]
    simp

theorem segments_ofSegments (some : ss ≠ []) (single : ∀ s ∈ ss, '/' ∉ s) :
    (ofSegments ss).segments = ss := by
  have text : (ofSegments ss).text.toList = ['/'].intercalate ss := String.toList_ofList
  rw [segments_of_text text, List.splitOn_intercalate '/' single some]

theorem components_ofSegments (named : ∀ s ∈ ss, IsEntry s) :
    (ofSegments ss).components = entries ss := by
  cases ss with
  | nil => rfl
  | cons s ss =>
    have split := segments_ofSegments (List.cons_ne_nil s ss) fun s there => (named s there).single
    rw [components_of_not_idle split (named s List.mem_cons_self).isIdle_eq, split,
      filterMap_component? named]

theorem ofSegments_singleton (s : List Char) : ofSegments [s] = ⟨String.ofList s⟩ := by
  rw [ofSegments, List.intercalate_singleton]

theorem ofSegments_concat (some : front ≠ []) (s : List Char) :
    ofSegments (front ++ [s]) = ⟨(ofSegments front).text ++ "/" ++ String.ofList s⟩ := by
  rw [ofSegments, Path.mk.injEq, ← String.toList_inj]
  simp [ofSegments, intercalate_concat some]

theorem getLast?_intercalate (some : s ≠ []) (front : List (List Char)) :
    (['/'].intercalate (front ++ [s])).getLast? = s.getLast? := by
  cases front with
  | nil => rw [List.nil_append, List.intercalate_singleton]
  | cons t front =>
    rw [intercalate_concat (List.cons_ne_nil t front), List.getLast?_append, List.getLast?_cons,
      List.getLast?_eq_some_getLast some]
    rfl

theorem join_ofSegments (named : ∀ t ∈ front, IsEntry t) (own : IsEntry s) :
    (ofSegments front).join ⟨String.ofList s⟩ = ofSegments (front ++ [s]) := by
  have relative : isAbsolute ⟨String.ofList s⟩ = false := by
    rw [← ofSegments_singleton]
    exact isAbsolute_eq_false (segments_ofSegments (by simp) (by simpa using own.single)) own.isIdle_eq
  have text : (ofSegments front).text.toList = ['/'].intercalate front := String.toList_ofList
  rw [join, if_neg (by simp [relative]), text]
  obtain rfl | ⟨front, t, rfl⟩ := List.eq_nil_or_concat front
  · simp [ofSegments]
  · rw [List.concat_eq_append] at named text ⊢
    have last := named t (by simp)
    have inner : t.getLast last.written ≠ '/' := fun slash =>
      last.single (slash ▸ List.getLast_mem last.written)
    rw [getLast?_intercalate last.written, List.getLast?_eq_some_getLast last.written,
      ofSegments_concat (show front ++ [t] ≠ [] by simp)]
    split
    next none => cases none
    next slash => exact absurd (Option.some.inj slash) inner
    next => rfl

theorem gather_eq (named : ∀ s ∈ ss, IsEntry s) : gather ss = ofSegments ss := by
  suffices all : ∀ front, (∀ s ∈ front, IsEntry s) →
      ss.foldl (fun p s => p.join ⟨String.ofList s⟩) (ofSegments front) = ofSegments (front ++ ss) from
    all [] nofun
  induction ss with
  | nil => simp
  | cons s ss ih =>
    intro front before
    obtain ⟨own, named⟩ := List.forall_mem_cons.1 named
    have before' : ∀ t ∈ front ++ [s], IsEntry t := by
      simpa [or_imp, forall_and] using ⟨before, own⟩
    rw [List.foldl_cons, join_ofSegments before own, ih named _ before', List.append_assoc,
      List.singleton_append]

theorem stem_eq_self (whole : '.' ∉ name) : stem name = name := by
  have undotted : name.reverse.dropWhile (· ≠ '.') = [] := by
    rw [List.dropWhile_eq_nil_iff]
    intro c there
    have other : c ≠ '.' := fun dot => whole (dot ▸ List.mem_reverse.1 there)
    simpa using other
  rw [stem, undotted]

theorem withExtension_ofSegments (named : ∀ s ∈ front ++ [name], IsEntry s) (whole : '.' ∉ name)
    {extension : String} (some : extension.isEmpty = false) :
    (ofSegments (front ++ [name])).withExtension extension =
      ofSegments (front ++ [name ++ '.' :: extension.toList]) := by
  have split := segments_ofSegments (show front ++ [name] ≠ [] by simp)
    fun s there => (named s there).single
  have file : (ofSegments (front ++ [name])).fileName? = Option.some (String.ofList name) := by
    rw [fileName?, components_ofSegments named]
    simp [entries]
  have own := named name (by simp)
  rw [withExtension, file, split, List.reverse_append, List.reverse_singleton,
    List.singleton_append, List.dropWhile_cons_of_neg (by simp [own.isIdle_eq])]
  simp [some, stem_eq_self whole]

theorem entries_injective {ss ss' : List (List Char)} (same : entries ss = entries ss') : ss = ss' :=
  (List.map_inj_right fun _ _ named => String.ofList_injective (PathComponent.named.inj named)).1 same

end Path

open StackMaps.Path

namespace BinaryName

variable {n n' : BinaryName} {s : List Char}

theorem segments_eq_splitOn (n : BinaryName) : n.segments = n.text.toList.splitOn '/' :=
  StackMaps.segments_eq _

/-- A segment of a name has no dot, so that it cannot lead out of a directory. -/
theorem isEntry_of_mem (there : s ∈ n.segments) : IsEntry s ∧ '.' ∉ s := by
  obtain ⟨written, plain⟩ := plain_of_mem there
  have free {c : Char} (reserved : isReserved c = true) : c ∉ s := fun inside => by
    rw [plain c inside] at reserved
    cases reserved
  have undotted : '.' ∉ s := free (by decide)
  refine ⟨⟨written, ?_, ?_, free (by decide)⟩, undotted⟩ <;>
  · rintro rfl
    exact undotted List.mem_cons_self

def simpleName (n : BinaryName) : List Char := n.segments.getLastD []

def fileNames (n : BinaryName) : List (List Char) := n.packages ++ [n.simpleName ++ ".class".toList]

theorem segments_eq_packages (n : BinaryName) : n.segments = n.packages ++ [n.simpleName] := by
  have some : n.segments ≠ [] := segments_ne_nil n.text.toList
  rw [simpleName, List.getLastD_eq_getLast?, List.getLast?_eq_some_getLast some, packages]
  exact (List.dropLast_concat_getLast some).symm

theorem isEntry_fileNames (there : s ∈ n.fileNames) : IsEntry s := by
  have named (s : List Char) (there : s ∈ n.packages ++ [n.simpleName]) : IsEntry s :=
    (isEntry_of_mem (n.segments_eq_packages ▸ there)).1
  obtain package | file := List.mem_append.1 there
  · exact named s (List.mem_append_left _ package)
  · obtain rfl := List.mem_singleton.1 file
    have own := (named n.simpleName (by simp)).single
    have long (t : List Char) (short : t.length < 3) : n.simpleName ++ ".class".toList ≠ t := by
      rintro rfl
      rw [List.length_append] at short
      have : ".class".toList.length = 6 := by decide
      omega
    exact ⟨long [] (by decide), long _ (by decide), long _ (by decide), by simpa using own⟩

theorem path_eq (n : BinaryName) : n.path = ofSegments n.fileNames := by
  have named (s : List Char) (there : s ∈ n.packages ++ [n.simpleName]) : IsEntry s ∧ '.' ∉ s :=
    isEntry_of_mem (n.segments_eq_packages ▸ there)
  have entries (s : List Char) (there : s ∈ n.packages ++ [n.simpleName]) : IsEntry s :=
    (named s there).1
  rw [path, n.segments_eq_packages, gather_eq entries, withExtension_ofSegments entries
    (named n.simpleName (by simp)).2 (by decide)]
  rfl

theorem components_path (n : BinaryName) : n.path.components = entries n.fileNames := by
  rw [path_eq, components_ofSegments fun _ => isEntry_fileNames]

theorem path_text (n : BinaryName) : n.path.text = n.entryName := by
  have text : ['/'].intercalate n.fileNames = n.text.toList ++ ".class".toList := by
    have whole : ['/'].intercalate (n.text.toList.splitOn '/') = n.text.toList :=
      List.intercalate_splitOn '/'
    rw [← segments_eq_splitOn, n.segments_eq_packages] at whole
    rw [← whole, fileNames, intercalate_append]
  rw [path_eq, ofSegments, text, ← String.toList_append, String.ofList_toList]
  rfl

theorem exists_segments_path (n : BinaryName) :
    ∃ first rest, n.path.segments = first :: rest ∧ isIdle first = false := by
  have some : n.fileNames ≠ [] := by simp [fileNames]
  obtain ⟨first, rest, names⟩ := List.exists_cons_of_ne_nil some
  have own : IsEntry first := isEntry_fileNames (names ▸ List.mem_cons_self)
  refine ⟨first, rest, ?_, own.isIdle_eq⟩
  rw [path_eq, segments_ofSegments some fun s there => (isEntry_fileNames there).single, names]

theorem isBelow_join (n : BinaryName) (directory : Path) :
    (directory.join n.path).IsBelow directory := by
  obtain ⟨first, rest, split, counts⟩ := n.exists_segments_path
  refine ⟨n.fileNames, by simp [fileNames], fun _ => isEntry_fileNames, ?_⟩
  rw [components_join split counts, components_path]

theorem components_path_injective (same : n'.path.components = n.path.components) : n' = n := by
  rw [components_path, components_path] at same
  have text : n'.path.text = n.path.text := by rw [path_eq, path_eq, entries_injective same]
  rw [path_text, path_text] at text
  have same : n'.text = n.text := by
    have chars := congrArg String.toList text
    simp only [entryName, String.toList_append] at chars
    exact String.toList_inj.1 (List.append_cancel_right chars)
  cases n'
  cases n
  cases same
  rfl

/-- The path of a class file consists of the segments of the name, the last one with `.class` behind
it. It is relative, it leads down from whatever directory it is joined to, and no other name has a
path of these components. -/
theorem path_confined {text : String} (accepted : ofString text = .ok n) :
    n.path.isAbsolute = false ∧
    text.toList.splitOn '/' = n.packages ++ [n.simpleName] ∧
    n.path.components = entries (n.packages ++ [n.simpleName ++ ".class".toList]) ∧
    (∀ s ∈ n.packages ++ [n.simpleName ++ ".class".toList], IsEntry s) ∧
    (∀ directory : Path, (directory.join n.path).IsBelow directory) ∧
    n.path.text = n.entryName ∧
    n.path.components.length = n.packageDepth + 1 ∧
    ∀ n' : BinaryName, n'.path.components = n.path.components → n' = n := by
  obtain rfl := ofString_eq_ok.1 accepted
  obtain ⟨first, rest, split, counts⟩ := n.exists_segments_path
  refine ⟨isAbsolute_eq_false split counts, ?_, n.components_path, fun _ => isEntry_fileNames,
    n.isBelow_join, n.path_text, ?_, fun _ => components_path_injective⟩
  · rw [← segments_eq_splitOn, n.segments_eq_packages]
  · have depth : n.segments.length = n.packageDepth + 1 := length_segments _
    rw [n.segments_eq_packages] at depth
    simpa [components_path, entries, fileNames] using depth

/-- A name with a blank, a backslash and a colon, which are nothing special in a path. -/
def rare : BinaryName := ⟨"\\/ /C:$1", by decide +kernel⟩

theorem path_confined_rare : ofString "\\/ /C:$1" = .ok rare ∧ rare.path.text = "\\/ /C:$1.class" ∧
    rare.path.components = [.named "\\", .named " ", .named "C:$1.class"] ∧
    ((⟨"out/../"⟩ : Path).join rare.path).IsBelow ⟨"out/../"⟩ := by
  have accepted : ofString "\\/ /C:$1" = .ok rare := ofString_eq_ok.2 rfl
  obtain ⟨_, _, components, _, below, text, _⟩ := path_confined accepted
  exact ⟨accepted, text, components, below _⟩

end BinaryName

end StackMaps
