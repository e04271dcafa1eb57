import StackMaps.Proofs.Frame.Merge

/-! Frames merge slot by slot. Frames with the same number of locals merge where their stacks do, and
what types their merge has is then decided type by type. -/

namespace StackMaps

variable {H : Hierarchy} {K : BinaryName → Prop} {R : BinaryName → BinaryName → Prop} {D : Nat}

/-- Two lists and what their elements give pair by pair. -/
inductive Zipped {α : Type} (Q : α → α → α → Prop) : List α → List α → List α → Prop
  | nil : Zipped Q [] [] []
  | cons {a b t : α} {as bs ts : List α} (first : Q a b t) (rest : Zipped Q as bs ts) :
    Zipped Q (a :: as) (b :: bs) (t :: ts)

namespace Zipped

variable {α : Type} {Q : α → α → α → Prop} {as bs ts : List α}

theorem append (zipped : Zipped Q as bs ts) {as' bs' ts' : List α} (more : Zipped Q as' bs' ts') :
    Zipped Q (as ++ as') (bs ++ bs') (ts ++ ts') := by
  induction zipped with
  | nil => exact more
  | cons first _ ih => exact .cons first ih

theorem reverse (zipped : Zipped Q as bs ts) : Zipped Q as.reverse bs.reverse ts.reverse := by
  induction zipped with
  | nil => exact .nil
  | cons first _ ih =>
    simp only [List.reverse_cons]
    exact ih.append (.cons first .nil)

theorem length_eq (zipped : Zipped Q as bs ts) : as.length = bs.length := by
  induction zipped with
  | nil => rfl
  | cons _ _ ih => simp only [List.length_cons, ih]

theorem length_merged (zipped : Zipped Q as bs ts) : ts.length = as.length := by
  induction zipped with
  | nil => rfl
  | cons _ _ ih => simp only [List.length_cons, ih]

theorem upper {P N : α → Prop} {S S' : α → α → Prop}
    (step : ∀ a b t, P a → P b → Q a b t → N t ∧ S a t ∧ S' b t) (zipped : Zipped Q as bs ts)
    (ina : ∀ a ∈ as, P a) (inb : ∀ b ∈ bs, P b) :
    (∀ t ∈ ts, N t) ∧ List.Forall₂ S as ts ∧ List.Forall₂ S' bs ts := by
  induction zipped with
  | nil => exact ⟨by simp, .nil, .nil⟩
  | cons first _ ih =>
    obtain ⟨ha, ina⟩ := List.forall_mem_cons.1 ina
    obtain ⟨hb, inb⟩ := List.forall_mem_cons.1 inb
    obtain ⟨int, as', bs'⟩ := ih ina inb
    obtain ⟨ht, sa, sb⟩ := step _ _ _ ha hb first
    exact ⟨List.forall_mem_cons.2 ⟨ht, int⟩, .cons sa as', .cons sb bs'⟩

theorem exists_below {P : α → Prop} {S : α → α → Prop} {ds : List α}
    (step : ∀ a b d, P a → P b → S a d → S b d → ∃ t, Q a b t ∧ S t d)
    (ina : ∀ a ∈ as, P a) (inb : ∀ b ∈ bs, P b) (ad : List.Forall₂ S as ds)
    (bd : List.Forall₂ S bs ds) : ∃ ts, Zipped Q as bs ts ∧ List.Forall₂ S ts ds := by
  induction ad generalizing bs with
  | nil => cases bd; exact ⟨[], .nil, .nil⟩
  | cons first _ ih =>
    cases bd with
    | cons first' rest' =>
      obtain ⟨ha, ina⟩ := List.forall_mem_cons.1 ina
      obtain ⟨hb, inb⟩ := List.forall_mem_cons.1 inb
      obtain ⟨ts, zipped, below⟩ := ih ina inb rest'
      obtain ⟨t, q, first⟩ := step _ _ _ ha hb first first'
      exact ⟨t :: ts, .cons q zipped, .cons first below⟩

end Zipped

namespace Frame

def Within (K : BinaryName → Prop) (D : Nat) (f : Frame) : Prop :=
  (∀ t ∈ f.locals, t.Within K D) ∧ ∀ t ∈ f.stack, t.Within K D

abbrev Fits (K : BinaryName → Prop) (D N : Nat) (f : Frame) : Prop :=
  f.Within K D ∧ f.locals.length = N

structure Merges (H : Hierarchy) (f g t : Frame) : Prop where
  locals : Zipped (fun a b t => answer (FlowType.mergeLocal H.source a b) = .ok t)
    f.locals g.locals t.locals
  stack : Zipped (FlowType.Merges H) f.stack g.stack t.stack

theorem answer_needing {α : Type} (offset : Nat) (query : Query Id α) :
    answer (needing offset query) = (answer query).mapError (.unknownClass offset) := by
  match query with
  | .ok _ => rfl
  | .error _ => rfl

theorem answer_needing_eq_ok {α : Type} {offset : Nat} {query : Query Id α} {a : α} :
    answer (needing offset query) = .ok a ↔ answer query = .ok a := by
  rw [answer_needing]
  cases answer query <;> simp [Except.mapError]

theorem mergeStackOnto_eq_ok {done as bs ts : List FlowType} (same : as.length = bs.length) :
    answer (mergeStackOnto H.source done as bs) = .ok (some ts) ↔
      ∃ merged, ts = merged.reverse ++ done ∧ Zipped (FlowType.Merges H) as bs merged := by
  induction as generalizing bs done with
  | nil =>
    cases bs with
    | cons => cases same
    | nil =>
      constructor
      · intro ok
        cases ok
        exact ⟨[], rfl, .nil⟩
      · rintro ⟨_, rfl, zipped⟩
        cases zipped
        rfl
  | cons a as ih =>
    cases bs with
    | nil => cases same
    | cons b bs =>
      rw [mergeStackOnto, answer_bind_eq_ok]
      constructor
      · rintro ⟨merged, ok, rest⟩
        cases merged with
        | none => cases rest
        | some t =>
          obtain ⟨merged, rfl, zipped⟩ := (ih (Nat.succ.inj same)).1 rest
          exact ⟨t :: merged, by simp, .cons (FlowType.merges_of_ok ok) zipped⟩
      · rintro ⟨_, rfl, zipped⟩
        cases zipped with
        | cons first rest =>
          exact ⟨_, first.answer_eq, (ih (Nat.succ.inj same)).2 ⟨_, by simp, rest⟩⟩

theorem mergeLocalsOnto_eq_ok {done as bs ts : List FlowType} (same : as.length = bs.length) :
    answer (mergeLocalsOnto H.source done as bs) = .ok ts ↔
      ∃ merged, ts = done.reverse ++ merged ∧
        Zipped (fun a b t => answer (FlowType.mergeLocal H.source a b) = .ok t) as bs merged := by
  induction as generalizing bs done with
  | nil =>
    cases bs with
    | cons => cases same
    | nil =>
      constructor
      · intro ok
        cases ok
        exact ⟨[], by simp, .nil⟩
      · rintro ⟨_, rfl, zipped⟩
        cases zipped
        rw [List.append_nil]
        rfl
  | cons a as ih =>
    cases bs with
    | nil => cases same
    | cons b bs =>
      rw [mergeLocalsOnto, answer_bind_eq_ok]
      constructor
      · rintro ⟨t, ok, rest⟩
        obtain ⟨merged, rfl, zipped⟩ := (ih (Nat.succ.inj same)).1 rest
        exact ⟨t :: merged, by simp, .cons ok zipped⟩
      · rintro ⟨_, rfl, zipped⟩
        cases zipped with
        | cons first rest =>
          exact ⟨_, first, (ih (Nat.succ.inj same)).2 ⟨_, by simp, rest⟩⟩

theorem merge_eq_ok {offset : Nat} {f g t : Frame} (same : f.locals.length = g.locals.length) :
    answer (merge H.source offset f g) = .ok t ↔ Merges H f g t := by
  by_cases heights : f.stack.length = g.stack.length
  · simp only [merge, heights, ne_eq, not_true, ↓reduceIte]
    rw [answer_bind_eq_ok]
    simp only [answer_needing_eq_ok]
    constructor
    · rintro ⟨merged, ok, rest⟩
      cases merged with
      | none => cases rest
      | some stack =>
        obtain ⟨locals, ok', rest⟩ := answer_bind_eq_ok.1 rest
        cases rest
        obtain ⟨stack', rfl, onStack⟩ := (mergeStackOnto_eq_ok (by simpa using heights)).1 ok
        rw [answer_needing_eq_ok] at ok'
        obtain ⟨locals', rfl, inLocals⟩ := (mergeLocalsOnto_eq_ok same).1 ok'
        exact ⟨by simpa using inLocals, by simpa using onStack.reverse⟩
    · rintro ⟨locals, stack⟩
      refine ⟨some t.stack, (mergeStackOnto_eq_ok (by simpa using heights)).2
        ⟨_, by simp, stack.reverse⟩, ?_⟩
      refine answer_bind_eq_ok.2 ⟨t.locals, answer_needing_eq_ok.2 ?_, rfl⟩
      exact (mergeLocalsOnto_eq_ok same).2 ⟨_, rfl, locals⟩
  · simp only [merge, heights, ne_eq, not_false_eq_true, ↓reduceIte]
    constructor
    · intro ok
      cases ok
    · intro merges
      exact absurd merges.stack.length_eq heights

theorem Merges.upper (upper : H.IsCovering K R) {f g t : Frame} (merges : Merges H f g t)
    (inf : f.Within K D) (ing : g.Within K D) :
    t.Within K D ∧ f.Below R t ∧ g.Below R t := by
  obtain ⟨locals, fl, gl⟩ := merges.locals.upper (P := FlowType.Within K D)
    (fun _ _ _ ina inb ok => FlowType.mergeLocal_upper upper ok ina inb) inf.1 ing.1
  obtain ⟨stack, fs, gs⟩ := merges.stack.upper (P := FlowType.Within K D)
    (fun _ _ _ ina inb merges => merges.upper upper ina inb) inf.2 ing.2
  exact ⟨⟨locals, stack⟩, ⟨fl, fs⟩, ⟨gl, gs⟩⟩

/-- Whatever the hierarchy, the merge of two frames is above both in the order of superclasses. -/
theorem Merges.below {f g t : Frame} (merges : Merges H f g t) :
    f.Below H.Under t ∧ g.Below H.Under t := by
  obtain ⟨_, fl, gl⟩ := merges.locals.upper (P := fun _ => True) (N := fun _ => True)
    (fun a b t _ _ ok => by
      obtain ⟨D, ina, inb⟩ := FlowType.exists_within a.names_true b.names_true
      exact ⟨trivial, (FlowType.mergeLocal_upper H.isCovering ok ina inb).2⟩)
    (fun _ _ => trivial) fun _ _ => trivial
  obtain ⟨_, fs, gs⟩ := merges.stack.upper (P := fun _ => True) (N := fun _ => True)
    (fun a b t _ _ merges => by
      obtain ⟨D, ina, inb⟩ := FlowType.exists_within a.names_true b.names_true
      exact ⟨trivial, (merges.upper H.isCovering ina inb).2⟩)
    (fun _ _ => trivial) fun _ _ => trivial
  exact ⟨⟨fl, fs⟩, ⟨gl, gs⟩⟩

theorem merge_least (least : H.IsLeast K R) {f g d : Frame} (inf : f.Within K D)
    (ing : g.Within K D) (fd : f.Below R d) (gd : g.Below R d) :
    ∃ t, Merges H f g t ∧ t.Below R d := by
  obtain ⟨locals, mergesl, belowl⟩ := Zipped.exists_below (P := FlowType.Within K D)
    (S := FlowType.LocalBelow R) (fun _ _ _ => FlowType.mergeLocal_least least)
    inf.1 ing.1 fd.locals gd.locals
  obtain ⟨stack, mergess, belows⟩ := Zipped.exists_below (P := FlowType.Within K D)
    (S := FlowType.Below R) (fun _ _ _ => FlowType.merge_least least)
    inf.2 ing.2 fd.stack gd.stack
  exact ⟨⟨locals, stack⟩, ⟨mergesl, mergess⟩, ⟨belowl, belows⟩⟩

end Frame

end StackMaps
