import Mathlib.Algebra.Ring.Nat
import StackMaps.Proofs.Flow.Merged
import StackMaps.Proofs.Frame.Shuffle

/-! How an instruction changes the widths of what is on the stack depends on these widths alone: it takes
away so many entries and leaves entries of fixed widths, or moves slots about. A merge leaves widths as
they are. -/

namespace StackMaps

theorem FlowType.width_of_isReference {t : FlowType} (reference : t.isReference = true) :
    width t = 1 := by
  cases t <;> first | rfl | cases reference

theorem StackOp.map_rearranged {α β : Type} (op : StackOp) (f : α → β) (top below : List α) :
    (op.rearranged top below).map f = op.rearranged (top.map f) (below.map f) := by
  cases op <;> simp [rearranged]

theorem totalWidth_eq_sum (stack : List FlowType) : totalWidth stack = (stack.map width).sum := by
  induction stack with
  | nil => rfl
  | cons t stack ih => rw [totalWidth, ih, List.map_cons, List.sum_cons]

theorem widths_of_append {top top' rest rest' : List FlowType}
    (same : (top ++ rest).map width = (top' ++ rest').map width)
    (total : totalWidth top = totalWidth top') :
    top.map width = top'.map width ∧ rest.map width = rest'.map width := by
  induction top generalizing top' with
  | nil =>
    obtain rfl := totalWidth_eq_zero.1 total.symm
    exact ⟨rfl, same⟩
  | cons t top ih =>
    have slots := t.width_cases
    cases top' with
    | nil =>
      simp only [totalWidth] at total
      omega
    | cons t' top' =>
      obtain ⟨first, same⟩ := List.cons_eq_cons.1 same
      rw [totalWidth, totalWidth, first] at total
      obtain ⟨above, below⟩ := ih same (by omega)
      exact ⟨by rw [List.map_cons, List.map_cons, first, above], below⟩

theorem ValueKind.Moves.width_eq {kind : ValueKind} {t t' : FlowType} (moves : kind.Moves t)
    (moves' : kind.Moves t') : width t = width t' := by
  cases kind with
  | numeric n => rw [show t = n.type from moves, show t' = n.type from moves']
  | reference => rw [FlowType.width_of_isReference moves, FlowType.width_of_isReference moves']

theorem ArrayKind.width_loaded {kind : ArrayKind} {array : FlowType} {element : Option FieldType}
    (elements : array.HasElements kind.holds element) : width (kind.loaded element) = width kind.value := by
  cases kind with
  | reference =>
    cases elements with
    | null => rfl
    | @array _ t _ held =>
      cases t with
      | base b => cases held
      | ref r => rfl
  | _ => rfl

namespace Instruction.Takes

variable {c : MethodContext} {offset offset' : Nat} {i : Instruction}
  {locals locals' taken taken' left left' : List FlowType}

/-- An instruction that does not move slots about takes the same number of entries everywhere and
leaves entries of the same widths. -/
theorem counts_eq (noShuffle : ∀ op, i ≠ .straight (.stack op)) (takes : i.Takes c offset locals taken left)
    (takes' : i.Takes c offset' locals' taken' left') :
    taken.length = taken'.length ∧ left.map width = left'.map width := by
  cases takes with
  | effect effect =>
    obtain ⟨rfl, rfl⟩ := takes'.eq_of_effect effect
    exact ⟨rfl, rfl⟩
  | stack => exact absurd rfl (noShuffle _)
  | loadConstant _ narrow =>
    cases takes' with
    | effect effect => cases effect
    | loadConstant _ narrow' => exact ⟨rfl, by simp [narrow, narrow']⟩
  | loadWideConstant _ wide =>
    cases takes' with
    | effect effect => cases effect
    | loadWideConstant _ wide' => exact ⟨rfl, by simp [wide, wide']⟩
  | load _ moves =>
    cases takes' with
    | effect effect => cases effect
    | load _ moves' => exact ⟨rfl, by simp [moves.width_eq moves']⟩
  | arrayLoad elements =>
    cases takes' with
    | effect effect => cases effect
    | arrayLoad elements' =>
      exact ⟨rfl, by simp [ArrayKind.width_loaded elements, ArrayKind.width_loaded elements']⟩
  | getStatic type =>
    cases takes' with
    | effect effect => cases effect
    | getStatic type' =>
      cases type.symm.trans type'
      exact ⟨rfl, rfl⟩
  | getField type =>
    cases takes' with
    | effect effect => cases effect
    | getField type' =>
      cases type.symm.trans type'
      exact ⟨rfl, rfl⟩
  | invokeStatic method accepts =>
    cases takes' with
    | effect effect => cases effect
    | invoke onObject => exact absurd rfl onObject
    | invokeStatic method' accepts' =>
      cases method.symm.trans method'
      exact ⟨accepts.length_eq.symm.trans accepts'.length_eq, rfl⟩
  | invoke onObject _ method accepts =>
    cases takes' with
    | effect effect => cases effect
    | invokeStatic => exact absurd rfl onObject
    | invoke _ _ method' accepts' =>
      cases method.symm.trans method'
      simp [← accepts.length_eq, ← accepts'.length_eq]
  | invokeDynamic site accepts =>
    cases takes' with
    | effect effect => cases effect
    | invokeDynamic site' accepts' =>
      cases site.symm.trans site'
      exact ⟨accepts.length_eq.symm.trans accepts'.length_eq, rfl⟩
  | arrayStore | increment | putStatic | putField | new | newReferenceArray | newMultiArray | arrayLength
  | checkCast | instanceOf | monitorEnter | monitorExit =>
    -- the instruction alone says what it takes and leaves
    cases takes' with
    | effect effect => cases effect
    | _ => exact ⟨rfl, rfl⟩
  | _ =>
    cases takes'
    exact ⟨rfl, rfl⟩

theorem widths_eq (takes : i.Takes c offset locals taken left) (takes' : i.Takes c offset' locals' taken' left')
    {rest rest' : List FlowType} (same : (taken ++ rest).map width = (taken' ++ rest').map width) :
    left.map width = left'.map width ∧ rest.map width = rest'.map width := by
  by_cases shuffle : ∃ op, i = .straight (.stack op)
  · obtain ⟨op, rfl⟩ := shuffle
    cases takes with
    | effect effect => cases effect
    | stack taken under =>
      cases takes' with
      | effect effect => cases effect
      | stack taken' under' =>
        rw [List.append_assoc, List.append_assoc] at same
        obtain ⟨first, same⟩ := widths_of_append same (taken.trans taken'.symm)
        obtain ⟨second, third⟩ := widths_of_append same (under.trans under'.symm)
        exact ⟨by rw [StackOp.map_rearranged, StackOp.map_rearranged, first, second], third⟩
  · obtain ⟨count, left⟩ := counts_eq (fun op here => shuffle ⟨op, here⟩) takes takes'
    rw [List.map_append, List.map_append] at same
    exact ⟨left, (List.append_inj same (by simpa using count)).2⟩

end Instruction.Takes

namespace Frame

def widths (f : Frame) : List Nat := f.stack.map width

theorem height_eq_sum (f : Frame) : f.height = f.widths.sum := totalWidth_eq_sum f.stack

theorem widths_replace {old new : FlowType} (same : width old = width new) (f : Frame) :
    (f.replace old new).widths = f.widths := by
  simp only [widths, replace, List.map_map]
  refine List.map_congr_left fun t _ => ?_
  simp only [Function.comp]
  split
  next here => rw [here, same]
  next => rfl

theorem width_initialized {c : MethodContext} {receiver object : FlowType}
    (ok : initialized? c receiver = some object) : width receiver = width object := by
  cases receiver <;> cases ok <;> rfl

variable {c : MethodContext}

theorem step_widths {offset : Nat} {i : Instruction} {f f' g g' : Frame}
    (ok : step c offset i f = .ok g) (ok' : step c offset i f' = .ok g') (same : f.widths = f'.widths) :
    g.widths = g'.widths := by
  have steps' := step_eq_ok.1 ok'
  cases step_eq_ok.1 ok with
  | takes rest takes =>
    cases steps' with
    | takes rest' takes' =>
      obtain ⟨first, second⟩ := takes.widths_eq takes' same
      simp only [widths, List.map_append, first, second]
    | stores => exact absurd takes Instruction.Takes.not_store
    | constructs _ _ method => exact absurd takes (Instruction.Takes.not_constructor method)
    | throws => exact absurd takes Instruction.Takes.not_throw
  | stores rest =>
    cases steps' with
    | takes rest' takes' => exact absurd takes' Instruction.Takes.not_store
    | stores rest' => exact (List.cons_eq_cons.1 same).2
  | constructs _ rest method _ accepts made =>
    cases steps' with
    | takes rest' takes' => exact absurd takes' (Instruction.Takes.not_constructor method)
    | constructs _ rest' method' _ accepts' made' =>
      cases method.symm.trans method'
      rw [widths_replace (width_initialized made), widths_replace (width_initialized made')]
      simp only [widths, List.map_append] at same
      have popped := (List.append_inj same (by simp [← accepts.length_eq, ← accepts'.length_eq])).2
      exact (List.cons_eq_cons.1 popped).2
  | throws _ _ reference =>
    cases steps' with
    | takes rest' takes' => exact absurd takes' Instruction.Takes.not_throw
    | throws _ _ reference' =>
      simp only [widths, List.map_cons, FlowType.width_of_isReference reference,
        FlowType.width_of_isReference reference']

variable {m : Type → Type} [Monad m] [LawfulMonad m] [MonadAttach m] [LawfulMonadAttach m]
  {s : HeaderSource m}

open MonadAttach

theorem width_of_merge {a b t : FlowType}
    (returns : CanReturn (FlowType.merge s a b) (some t)) : width a = width t ∧ width b = width t := by
  obtain ⟨rfl, rfl⟩ | ⟨⟨r, rfl⟩, left, right⟩ := FlowType.merge_returns returns
  · exact ⟨rfl, rfl⟩
  · exact ⟨FlowType.width_of_isReference left, FlowType.width_of_isReference right⟩

theorem widths_of_merge {n : Nat} {f g t : Frame} (returns : CanReturn (merge s n f g) t) :
    f.widths = t.widths ∧ g.widths = t.widths := by
  have entries := (mergedBy_of_merge returns).stack
  unfold widths
  generalize f.stack = as, g.stack = bs, t.stack = ts at entries
  induction entries with
  | nil => exact ⟨rfl, rfl⟩
  | cons first _ ih =>
    obtain ⟨left, right⟩ := width_of_merge first
    simp only [List.map_cons, left, right, ih.1, ih.2, and_self]

end Frame

end StackMaps
