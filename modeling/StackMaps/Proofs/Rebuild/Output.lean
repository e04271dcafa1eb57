import StackMaps.Job
import StackMaps.Proofs.ClassFile.Codec
import StackMaps.Proofs.Rebuild.Again

/-! The class file that is written once a method has its new table. Lengths and counts are written in
16 or 32 bits, most of them unchecked, so it is read as what was meant exactly if all of them fit. -/

namespace StackMaps

variable {l : FixedLoader} {graph : ClassGraph} {H : Hierarchy} {visits : Nat} {signature : Signature}
  {code : Code} {pool : Pool} {a : Analysis} {g : FlowGraph} {st : FlowState} {r : Rebuilt}

section

variable {α : Type} {p : α → Bool} {xs : List α} {x : α} {i : Nat}

theorem find?_set_findIdx? (index : xs.findIdx? p = some i) (holds : p x = true) :
    (xs.set i x).find? p = some x := by
  induction xs generalizing i with
  | nil => cases index
  | cons y xs ih =>
    rw [List.findIdx?_cons] at index
    split at index
    next =>
      cases index
      exact List.find?_cons_of_pos holds
    next other =>
      obtain ⟨j, there, rfl⟩ := Option.map_eq_some_iff.1 index
      rw [List.set_cons_succ, List.find?_cons_of_neg other]
      exact ih there

theorem find?_concat (absent : xs.findIdx? p = none) (holds : p x = true) :
    (xs ++ [x]).find? p = some x := by
  have none : xs.find? p = none := List.find?_eq_none.2 fun y there => by
    simpa using List.findIdx?_eq_none_iff.1 absent y there
  rw [List.find?_append, none, List.find?_cons_of_pos holds]
  rfl

end

theorem Method.code?_withCode {m : Method} {t : Attribute}
    (named : t.hasName pool Code.attributeName = true) :
    (m.withCode pool t).code? pool = (Code.ofBody t.body).map some := by
  have found : (m.withCode pool t).attributes.find? (Attribute.hasName pool Code.attributeName) =
      some t := by
    unfold withCode
    split
    next i index => exact find?_set_findIdx? index named
    next absent => exact find?_concat absent named
  rw [code?, found]

theorem Method.fits_withCode {m : Method} {t : Attribute} {i : Nat} (fits : m.Fits)
    (index : m.codeIndex? pool = some i) : (m.withCode pool t).Fits ↔ t.Fits := by
  have inside := (List.findIdx?_eq_some_iff_getElem.1 index).1
  simp only [withCode, index, Member.Fits, Attribute.AllFit, List.length_set]
  constructor
  · rintro ⟨_, all⟩
    exact all t (List.mem_set inside _)
  · refine fun own => ⟨fits.1, fun t' there => ?_⟩
    obtain old | rfl := List.mem_or_eq_of_mem_set there
    · exact fits.2 t' old
    · exact own

theorem Method.fits_of_code? {m : Method} (ok : m.code? pool = .ok (some code)) : code.Fits := by
  unfold code? at ok
  split at ok
  next => cases ok
  next t _ =>
    obtain ⟨code', read, same⟩ := map_eq_ok.1 ok
    cases same
    exact ((Attribute.decodeBody_eq_ok Code.decoder_exact).1 read).1

theorem Method.code?_withCode_iff {m : Method} {t : Attribute}
    (is : t.Is pool Code.attributeName code.encode) :
    (m.withCode pool t).code? pool = .ok (some code) ↔ code.Fits := by
  have reads : Code.ofBody t.body = .ok code ↔ code.Fits := by
    rw [Code.ofBody, Attribute.decodeBody_eq_ok Code.decoder_exact, is.body]
    exact and_iff_left rfl
  rw [Method.code?_withCode is.hasName, ← reads]
  cases Code.ofBody t.body <;> simp [Except.map]

theorem Code.canSay_of_readTable {frames : List (Nat × Frame)} {maxLocals : Nat}
    (same : code.maxLocals.toNat = maxLocals) (read : code.readTable pool signature =
      some (frames.map fun (offset, f) => (offset, f.read maxLocals))) :
    StackMapTable.CanSay frames := by
  subst same
  simp only [readTable, Option.bind_eq_bind, Option.bind_eq_some_iff] at read
  obtain ⟨i, _, t, _, table, decoded, replays⟩ := read
  obtain ⟨⟨few, fits⟩, _⟩ := StackMapTable.written_of_ofBody (toOption_eq_some.1 decoded)
  obtain ⟨size, can⟩ := StackMapTable.canSayFrom_of_replay fits replays
  exact ⟨size ▸ few, can⟩

theorem Analysis.Found.rebuilt_fits (found : a.Found H visits signature code pool g st)
    (fits : code.Fits) (ok : a.rebuild code pool = .ok r) (short : r.code.encode.length < 2 ^ 32)
    (handlers : r.code.handlers.length < 65536) (attributes : r.code.attributes.length < 65536) :
    r.code.Fits := by
  refine Code.fits_of_encode short handlers (fun h' there => ?_) attributes
  rw [rebuilt_handlers ok] at there
  obtain ⟨h, old, _, _, same⟩ := found.explored.mem_buried_handlers there
  rw [same]
  exact fits.catchTypes h old

namespace ClassFile

variable {c changed : ClassFile} {selected : Selection} {bytes : List UInt8}

/-- What was written is read as what was meant: the class file, the code of the method in it, and
the frames in the table of that. -/
structure ReadsBack (changed : ClassFile) (selected : Selection) (a : Analysis) (r : Rebuilt) :
    Prop where
  whole : parse changed.encode = .ok changed
  code : ∃ m, changed.methods[selected.index]? = some m ∧ m.code? changed.pool = .ok (some r.code)
  table : a.frames ≠ [] → r.code.readTable changed.pool selected.signature =
    some (a.frames.map fun (offset, f) => (offset, f.read selected.code.maxLocals.toNat))

/-- All that grew still fits in the field that is written for it. -/
structure Sized (changed : ClassFile) (a : Analysis) (r : Rebuilt) : Prop where
  constants : ∀ k ∈ changed.pool.entries.toList, k.Fits
  count : changed.pool.entries.next ≤ 65535
  handlers : r.code.handlers.length < 65536
  attributes : r.code.attributes.length < 65536
  body : r.code.encode.length < 2 ^ 32
  frames : StackMapTable.CanSay a.frames

theorem fits_of_parse (ok : parse bytes = .ok c) :
    c.pool.Built ∧ (c.pool.entries.next ≤ 65535 → c.Fits) := by
  obtain ⟨_, _, _, _, _, _, fits, _⟩ := decoder_eq_ok (parse_eq_ok.1 ok)
  exact fits

theorem withCode_eq_ok (built : c.pool.Built) (grows : c.pool.Grows r.pool)
    (later : r.pool.Built) (decoded : selected.method.code? c.pool = .ok (some code))
    (ok : c.withCode selected r = .ok changed) : ∃ t i,
      changed = { c with
        pool := r.pool
        methods := c.methods.set selected.index (selected.method.withCode r.pool t) } ∧
      t.Is r.pool Code.attributeName r.code.encode ∧
      selected.method.codeIndex? r.pool = some i := by
  have named : ∃ t' ∈ selected.method.attributes, t'.hasName c.pool Code.attributeName = true := by
    unfold Method.code? at decoded
    split at decoded
    next => cases decoded
    next t' first => exact ⟨t', List.mem_of_find?_eq_some first, List.find?_some first⟩
  obtain ⟨t', there, named⟩ := named
  have known := grows.get? built (Attribute.hasName_iff.1 named)
  obtain ⟨t, added, is⟩ := Attribute.run_adding later known
  obtain ⟨i, index⟩ : ∃ i, selected.method.codeIndex? r.pool = some i := by
    refine Option.isSome_iff_exists.1 (List.findIdx?_isSome.trans ?_)
    exact List.any_eq_true.2 ⟨t', there, Attribute.hasName_iff.2 known⟩
  rw [withCode, added] at ok
  cases ok
  exact ⟨t, i, rfl, is, index⟩

theorem fits_withCode {t : Attribute} {i : Nat} (fits : c.Fits)
    (there : c.methods[selected.index]? = some selected.method)
    (index : selected.method.codeIndex? r.pool = some i) :
    ({ c with
        pool := r.pool
        methods := c.methods.set selected.index (selected.method.withCode r.pool t) } : ClassFile).Fits ↔
      r.pool.Fits ∧ t.Fits := by
  obtain ⟨inside, same⟩ := List.getElem?_eq_some_iff.1 there
  have own := Method.fits_withCode (t := t) (fits.methods.2 _ (List.mem_of_getElem? there)) index
  constructor
  · intro whole
    exact ⟨whole.pool, own.1 (whole.methods.2 _ (List.mem_set inside _))⟩
  · rintro ⟨pool, short⟩
    refine ⟨pool, fits.superclass, fits.interfaces, fits.fields, ⟨?_, fun m member => ?_⟩, fits.attributes⟩
    · rw [List.length_set]
      exact fits.methods.1
    · obtain old | rfl := List.mem_or_eq_of_mem_set member
      · exact fits.methods.2 m old
      · exact own.2 short

/-- The class file with a rebuilt method is read as what was meant exactly if all that grew fits. -/
theorem rebuild_readsBack_iff (parsed : parse bytes = .ok c)
    (there : c.methods[selected.index]? = some selected.method)
    (decoded : selected.method.code? c.pool = .ok (some selected.code))
    (run : graph.answer (Analysis.run (graph.source l.loader) selected.signature selected.code c.pool) =
      .ok a)
    (ok : c.rebuild selected a = .ok changed) :
    ∃ r, a.rebuild selected.code c.pool = .ok r ∧
      (changed.ReadsBack selected a r ↔ changed.Sized a r) := by
  obtain ⟨built, fits⟩ := fits_of_parse parsed
  obtain ⟨g, st, found⟩ := Analysis.run_eq_ok.1 run
  cases rebuilt : a.rebuild selected.code c.pool with
  | error e =>
    rw [rebuild, rebuilt] at ok
    cases ok
  | ok r =>
    rw [rebuild, rebuilt] at ok
    refine ⟨r, rfl, ?_⟩
    obtain ⟨later, grows⟩ := Analysis.rebuild_grows built rebuilt
    obtain ⟨t, i, rfl, is, index⟩ := withCode_eq_ok built grows later decoded ok
    obtain ⟨inside, _⟩ := List.getElem?_eq_some_iff.1 there
    have codeFits := Method.fits_of_code? decoded
    have code_iff := Method.code?_withCode_iff (m := selected.method) is
    have maxLocals := congrArg UInt16.toNat (Analysis.rebuilt_maxLocals rebuilt)
    constructor
    · rintro ⟨whole, ⟨m, at_, read⟩, table⟩
      have all := parse_encode_iff.1 whole
      obtain ⟨constants, count⟩ := later.fits_iff.1 all.pool
      have short := ((fits_withCode (fits (Nat.le_trans grows.next_le count)) there index).1 all).2
      rw [List.getElem?_set_self inside] at at_
      cases at_
      have rebuiltFits := code_iff.1 read
      refine ⟨constants, count, rebuiltFits.handlers, rebuiltFits.attributes.1, is.body ▸ short, ?_⟩
      by_cases none : a.frames = []
      · rw [none]
        decide
      · exact Code.canSay_of_readTable maxLocals (table none)
    · intro sized
      have pool := later.fits_iff.2 ⟨sized.constants, sized.count⟩
      have short : t.Fits := by
        rw [Attribute.Fits, is.body]
        exact sized.body
      have all := (fits_withCode (fits (Nat.le_trans grows.next_le sized.count)) there index).2 ⟨pool, short⟩
      have rebuiltFits := found.rebuilt_fits codeFits rebuilt sized.body sized.handlers sized.attributes
      exact ⟨parse_encode_iff.2 all, ⟨_, List.getElem?_set_self inside, code_iff.2 rebuiltFits⟩,
        (found.written_of_canSay built sized.frames rebuilt).table⟩

def leaveMethod : Method := ⟨.ofBits 8, 1, 3, [⟨4, leaveCode.encode⟩]⟩

def leaveClass : ClassFile where
  version := ⟨52, 0⟩
  pool := .ofList [.utf8 [0x41], .cls 1, .utf8 [0x28, 0x29, 0x56], .utf8 [0x43, 0x6f, 0x64, 0x65]]
  flags := .ofBits 0
  thisClass := 2
  superclass := none
  interfaces := []
  fields := []
  methods := [leaveMethod]
  attributes := []

theorem leaveClass_fits : leaveClass.Fits where
  pool := ⟨⟨_, rfl, by decide⟩, by decide⟩
  superclass := by decide
  interfaces := by decide
  fields := ⟨by decide, nofun⟩
  methods := by
    have code : (⟨4, leaveCode.encode⟩ : Attribute).Fits := by
      rw [Attribute.Fits]
      decide
    have method : leaveMethod.Fits := ⟨by decide, fun t there => List.mem_singleton.1 there ▸ code⟩
    exact ⟨by decide, fun m there => List.mem_singleton.1 there ▸ method⟩
  attributes := ⟨by decide, nofun⟩

def leaveSelection : Selection := ⟨0, leaveMethod, leaveSignature, leaveCode⟩

theorem rebuild_readsBack_leave : parse leaveClass.encode = .ok leaveClass ∧ ∃ a changed r,
    ClassGraph.standard.answer (Analysis.run (ClassGraph.standard.source FixedLoader.empty.loader)
      leaveSignature leaveCode leaveClass.pool) = .ok a ∧
    leaveClass.rebuild leaveSelection a = .ok changed ∧ a.rebuild leaveCode leaveClass.pool = .ok r ∧
    a.frames.length = 1 ∧ changed.Sized a r ∧ changed.ReadsBack leaveSelection a r := by
  have parsed : parse leaveClass.encode = .ok leaveClass := parse_encode_iff.2 leaveClass_fits
  have decoded : leaveMethod.code? leaveClass.pool = .ok (some leaveCode) := by
    have named : leaveMethod.attributes.find? (Attribute.hasName leaveClass.pool Code.attributeName) =
        some ⟨4, leaveCode.encode⟩ := by decide +kernel
    have read : Code.ofBody leaveCode.encode = .ok leaveCode :=
      (Attribute.decodeBody_eq_ok Code.decoder_exact).2
        ⟨⟨by decide, by decide, nofun, by decide, nofun⟩, rfl⟩
    rw [Method.code?, named]
    simp only [read]
    rfl
  have there : leaveClass.methods[leaveSelection.index]? = some leaveSelection.method := rfl
  let analyzed := ClassGraph.standard.answer (Analysis.run
    (ClassGraph.standard.source FixedLoader.empty.loader) leaveSignature leaveCode leaveClass.pool)
  have facts : (analyzed.toOption.bind fun a => (a.rebuild leaveCode leaveClass.pool).toOption.bind fun r =>
      (leaveClass.rebuild leaveSelection a).toOption.map fun changed =>
        decide (a.frames.length = 1 ∧ (∀ k ∈ changed.pool.entries.toList, k.Fits) ∧
          changed.pool.entries.next ≤ 65535 ∧ r.code.handlers.length < 65536 ∧
          r.code.attributes.length < 65536 ∧ r.code.encode.length < 2 ^ 32 ∧
          StackMapTable.CanSay a.frames)) = some true := by decide +kernel
  obtain ⟨a, run, facts⟩ := Option.bind_eq_some_iff.1 facts
  obtain ⟨r, rebuilt, facts⟩ := Option.bind_eq_some_iff.1 facts
  obtain ⟨changed, ok, facts⟩ := Option.map_eq_some_iff.1 facts
  have run : analyzed = .ok a := toOption_eq_some.1 run
  have rebuilt : a.rebuild leaveCode leaveClass.pool = .ok r := toOption_eq_some.1 rebuilt
  have ok : leaveClass.rebuild leaveSelection a = .ok changed := toOption_eq_some.1 ok
  obtain ⟨frames, constants, count, handlers, attributes, body, can⟩ := of_decide_eq_true facts
  have sized : changed.Sized a r := ⟨constants, count, handlers, attributes, body, can⟩
  obtain ⟨r', rebuilt', iff⟩ := rebuild_readsBack_iff parsed there decoded run ok
  obtain rfl := Except.ok.inj (rebuilt.symm.trans rebuilt')
  exact ⟨parsed, a, changed, r, run, ok, rebuilt, frames, sized, iff.2 sized⟩

end ClassFile

end StackMaps
