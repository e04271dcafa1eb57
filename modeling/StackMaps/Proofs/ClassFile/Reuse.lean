import StackMaps.Proofs.ClassFile.Requests

/-! When a class that is there is used again. A name is looked up by the text that it would be
written as, and the class by the first index of that text, so that a class constant is not found if
it names a later copy of the text, or another spelling of it. -/

namespace StackMaps.Pool

variable {pool : Pool} {name : String} {c : Constant} {r : Request} {i j : ConstantIndex}

theorem Built.exists_first? (built : pool.Built) (there : pool.get? i = some c) :
    ∃ j, pool.first? c = some j :=
  built.index_eq_first? c ▸ built.exists_index there

/-- A request leaves the pool as it is if and only if all that it needs is there. -/
theorem Built.request_known_iff (built : pool.Built) :
    r.run.run pool = (.ok i, pool) ↔ r.resolve pool.seek = .ok i :=
  ⟨fun ran => (r.seeks.ends built ran).ok i rfl, fun found => r.seeks.known built found⟩

theorem Built.class_known_iff (built : pool.Built) :
    (indexOfClass name).run pool = (.ok j, pool) ↔
      ∃ t, pool.first? (.utf8 (ModifiedUtf8.encode name)) = some t ∧
        pool.first? (.cls t) = some j := by
  have known := built.request_known_iff (r := .cls name) (i := j)
  simpa only [Request.run, Request.resolve, Request.resolveClass, Request.resolveText, bind_eq_ok,
    seek_eq_ok] using known

/-- Whatever reads as the name is the first text that is written as it is written. -/
def SpelledOnce (pool : Pool) (name : String) : Prop :=
  ∀ t, pool.utf8 t = .ok name → pool.first? (.utf8 (ModifiedUtf8.encode name)) = some t

/-- A class is used again, in a full pool too, if and only if some class constant names the first
text that is written as its name is. If the pool spells the name once, each class constant that
resolves to it does. -/
theorem Arisen.reuses_class (arisen : pool.Arisen) (name : String) :
    ((∃ j, (indexOfClass name).run pool = (.ok j, pool)) ↔ ∃ t i,
      pool.first? (.utf8 (ModifiedUtf8.encode name)) = some t ∧ pool.get? i = some (.cls t)) ∧
    (pool.SpelledOnce name → ∀ i, pool.className i = .ok name →
      ∃ j, (indexOfClass name).run pool = (.ok j, pool)) ∧
    ∀ j later, (indexOfClass name).run pool = (.ok j, later) → later.className j = .ok name := by
  have built := arisen.built
  have known : (∃ j, (indexOfClass name).run pool = (.ok j, pool)) ↔ ∃ t i,
      pool.first? (.utf8 (ModifiedUtf8.encode name)) = some t ∧ pool.get? i = some (.cls t) := by
    simp only [built.class_known_iff]
    constructor
    · rintro ⟨j, t, text, cls⟩
      exact ⟨t, j, text, built.get?_of_first? cls⟩
    · rintro ⟨t, i, text, there⟩
      obtain ⟨j, cls⟩ := built.exists_first? there
      exact ⟨j, t, text, cls⟩
  refine ⟨known, fun once i resolves => ?_, fun j later ran => ?_⟩
  · rw [className] at resolves
    split at resolves
    next t there => exact known.2 ⟨t, i, once t resolves, there⟩
    next => cases resolves
  · obtain ⟨later_built, _, again⟩ := adds_indexOfClass name built ran
    exact (again later later_built (.refl later)).2

def lone : Pool := ofList [.utf8 [65], .cls 1]

theorem lone_spelledOnce : lone.SpelledOnce "A" := by
  intro t text
  obtain ⟨bytes, found, _⟩ := bind_eq_ok.1 text
  rw [utf8Bytes] at found
  split at found
  next there =>
    have place := get?_ofList.1 there
    simp only [placed, List.mem_cons, Prod.mk.injEq, reduceCtorEq, and_false, List.not_mem_nil,
      or_false] at place
    obtain rfl : t = 1 := UInt16.toNat_inj.1 place.1
    rfl
  next => cases found

/-- The class is found in the one pool. In the other a class constant resolves to the name too, but
by the second of two texts. -/
theorem Arisen.reuses_class_lone :
    (lone.Arisen ∧ lone.SpelledOnce "A" ∧ lone.className 2 = .ok "A" ∧
      ∃ j, (indexOfClass "A").run lone = (.ok j, lone)) ∧
    twins.Arisen ∧ twins.className 3 = .ok "A" ∧
      ¬ ∃ j, (indexOfClass "A").run twins = (.ok j, twins) := by
  have arisen : lone.Arisen := Fits.arisen ⟨⟨_, rfl, by simp [Constant.Fits]⟩, by decide⟩
  have resolves : lone.className 2 = .ok "A" := by rfl
  obtain ⟨_, reused, _⟩ := arisen.reuses_class "A"
  refine ⟨⟨arisen, lone_spelledOnce, resolves, reused lone_spelledOnce 2 resolves⟩, twins_arisen,
    by rfl, fun known => ?_⟩
  obtain ⟨t, i, text, there⟩ := (twins_arisen.reuses_class "A").1.1 known
  have first : twins.first? (.utf8 (ModifiedUtf8.encode "A")) = some 1 := by rfl
  obtain rfl : 1 = t := Option.some.inj (first.symm.trans text)
  have place := get?_ofList.1 there
  simp [placed, width] at place

end StackMaps.Pool
