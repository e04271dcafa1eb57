import StackMaps.Descriptor
import StackMaps.Proofs.Name

/-! What a parser of descriptors reads is how the type that it yields is written: parsing and writing
are inverse to each other. -/

namespace StackMaps

theorem DescriptorParser.run_eq_ok {α : Type} {p : DescriptorParser α} {source : String} {x : α} :
    p.run source = .ok x ↔ p source.toList = .ok (x, []) := by
  unfold run
  split
  next e failed => simp [failed]
  next y read => simp [read]
  next y c rest read => simp [read]

theorem BaseType.ofLetter?_eq_some {c : Char} {b : BaseType} :
    ofLetter? c = some b ↔ c = b.letter := by
  constructor
  · intro ok
    unfold ofLetter? at ok
    split at ok <;> cases ok <;> rfl
  · rintro rfl
    cases b <;> rfl

theorem BaseType.parser_eq_ok {cs rest : List Char} {b : BaseType} :
    BaseType.parser cs = .ok (b, rest) ↔ cs = b.letter :: rest := by
  cases cs with
  | nil => simp [BaseType.parser]
  | cons c cs =>
    rw [BaseType.parser, List.cons.injEq, ← ofLetter?_eq_some]
    split
    next b' letter => simp [letter]
    next none => simp [none]

theorem takeWhile_dropWhile {α : Type} {p : α → Bool} {d : α} (xs rest : List α)
    (all : ∀ x ∈ xs, p x = true) (stop : p d = false) :
    (xs ++ d :: rest).takeWhile p = xs ∧ (xs ++ d :: rest).dropWhile p = d :: rest := by
  rw [List.takeWhile_append_of_pos all, List.dropWhile_append_of_pos all,
    List.takeWhile_cons_of_neg (by simp [stop]), List.dropWhile_cons_of_neg (by simp [stop]),
    List.append_nil]
  exact ⟨rfl, rfl⟩

theorem BinaryName.parser_eq_ok {cs rest : List Char} {n : BinaryName} :
    BinaryName.parser cs = .ok (n, rest) ↔ cs = n.descriptorChars ++ rest := by
  constructor
  · intro ok
    unfold BinaryName.parser at ok
    split at ok
    next cs =>
      simp only at ok
      split at ok
      next => cases ok
      next d rest' dropped =>
        split at ok
        next m named =>
          cases ok
          have text := congrArg String.toList (ofString_eq_ok.1 named)
          rw [String.toList_ofList] at text
          have stop : d = ';' := by
            have first := List.head?_dropWhile_not (· ≠ ';') cs
            rw [dropped] at first
            simpa using first
          have whole := List.takeWhile_append_dropWhile (p := (· ≠ ';')) (l := cs)
          rw [dropped, stop, text] at whole
          simp [descriptorChars, ← whole]
        next => cases ok
    next => cases ok
  · rintro rfl
    have cut := takeWhile_dropWhile (p := (· ≠ ';')) (d := ';') n.text.toList rest
      (fun c there => by simpa using (n.ne_of_mem there).1) (by decide)
    have whole : n.descriptorChars ++ rest = 'L' :: (n.text.toList ++ ';' :: rest) := by
      simp [descriptorChars]
    rw [whole, BinaryName.parser]
    simp only [cut, String.ofList_toList]
    rw [ofString_eq_ok.2 rfl]

theorem ElementType.parser_eq_ok {cs rest : List Char} {e : ElementType} :
    ElementType.parser cs = .ok (e, rest) ↔ cs = e.chars ++ rest := by
  unfold ElementType.parser
  split
  next cs =>
    cases e with
    | object n =>
      rw [chars, ← BinaryName.parser_eq_ok]
      split
      next m rest' named => simp [named]
      next e failed => simp [failed]
    | base b =>
      have other : 'L' :: cs ≠ (base b).chars ++ rest := by cases b <;> simp [chars, BaseType.letter]
      simp only [other, iff_false]
      split <;> simp
  next other =>
    cases e with
    | object n =>
      have different : cs ≠ (object n).chars ++ rest := other _
      simp only [different, iff_false]
      split <;> simp
    | base b =>
      rw [chars, List.singleton_append, ← BaseType.parser_eq_ok]
      split
      next b' rest' letter => simp [letter]
      next e failed => simp [failed]

theorem ElementType.chars_eq (e : ElementType) : ∃ c cs, e.chars = c :: cs ∧ c ≠ '[' := by
  cases e with
  | base b => exact ⟨b.letter, [], rfl, by cases b <;> decide⟩
  | object n => exact ⟨'L', _, rfl, by decide⟩

theorem RefType.brackets_eq {cs rest : List Char} {i : Nat} {e : ElementType} :
    cs = List.replicate i '[' ++ (e.chars ++ rest) ↔
      (cs.takeWhile (· = '[')).length = i ∧ cs.dropWhile (· = '[') = e.chars ++ rest := by
  constructor
  · rintro rfl
    obtain ⟨c, more, same, other⟩ := e.chars_eq
    have cut := takeWhile_dropWhile (p := (· = '[')) (d := c) (List.replicate i '[')
      (more ++ rest) (fun x there => by simpa using List.eq_of_mem_replicate there)
      (by simpa using other)
    rw [same, List.cons_append, cut.1, cut.2]
    exact ⟨List.length_replicate, rfl⟩
  · rintro ⟨count, dropped⟩
    have all : ∀ c ∈ cs.takeWhile (· = '['), c = '[' := fun c there => by
      simpa using List.all_eq_true.1 (List.all_takeWhile (p := (· = '['))) c there
    have taken : cs.takeWhile (· = '[') = List.replicate i '[' := List.eq_replicate_iff.2 ⟨count, all⟩
    rw [← dropped, ← taken, List.takeWhile_append_dropWhile]

theorem RefType.parser_eq_ok {cs rest : List Char} {r : RefType} :
    RefType.parser cs = .ok (r, rest) ↔ cs = r.chars ++ rest := by
  unfold RefType.parser
  split
  next =>
    cases r with
    | object n => simp [chars, BinaryName.descriptorChars]
    | array i e => simp [chars, List.replicate_succ]
  next cs =>
    cases r with
    | object n =>
      rw [chars, ← BinaryName.parser_eq_ok]
      split
      next m rest' named => simp [named]
      next e failed => simp [failed]
    | array i e =>
      simp only [chars, List.replicate_succ, List.cons_append, List.cons.injEq, Char.reduceEq,
        false_and, iff_false]
      split <;> simp
  next cs =>
    cases r with
    | object n =>
      simp only [chars, BinaryName.descriptorChars, List.cons_append, List.cons.injEq,
        Char.reduceEq, false_and, iff_false]
      split <;> simp
    | array i e =>
      rw [chars, List.replicate_succ, List.cons_append, List.cons_append, List.cons.injEq,
        List.append_assoc, brackets_eq, ← ElementType.parser_eq_ok]
      split
      next t after read => simp [read, and_assoc]
      next e failed => simp [failed]
  next c cs notName notArray =>
    cases r with
    | object n =>
      simp only [chars, BinaryName.descriptorChars, List.cons_append, List.cons.injEq, reduceCtorEq,
        false_iff, not_and]
      exact fun name => (notName name).elim
    | array i e =>
      simp only [chars, List.replicate_succ, List.cons_append, List.cons.injEq, reduceCtorEq,
        false_iff, not_and]
      exact fun array => (notArray array).elim

theorem RefType.chars_eq (r : RefType) : ∃ c cs, r.chars = c :: cs ∧ (c = 'L' ∨ c = '[') := by
  cases r with
  | object n => exact ⟨'L', _, rfl, .inl rfl⟩
  | array i e => exact ⟨'[', _, rfl, .inr rfl⟩

theorem FieldType.chars_eq (t : FieldType) : ∃ c cs, t.chars = c :: cs ∧ c ≠ ')' ∧ c ≠ 'V' := by
  cases t with
  | base b => exact ⟨b.letter, [], rfl, by cases b <;> decide⟩
  | ref r =>
    obtain ⟨c, cs, same, rfl | rfl⟩ := r.chars_eq
    · exact ⟨_, cs, same, by decide⟩
    · exact ⟨_, cs, same, by decide⟩

theorem FieldType.parser_eq_ok {cs rest : List Char} {t : FieldType} :
    FieldType.parser cs = .ok (t, rest) ↔ cs = t.chars ++ rest := by
  cases cs with
  | nil =>
    obtain ⟨c, more, same, _⟩ := t.chars_eq
    simp [parser, same]
  | cons c cs =>
    cases t with
    | base b =>
      rw [parser, chars, List.singleton_append, List.cons.injEq, ← BaseType.ofLetter?_eq_some]
      cases letter : BaseType.ofLetter? c with
      | some b' => simp
      | none =>
        simp only
        split
        · split <;> simp
        · simp
    | ref r =>
      by_cases first : c = 'L' ∨ c = '['
      · have none : BaseType.ofLetter? c = none := by
          obtain rfl | rfl := first <;> rfl
        rw [chars, ← RefType.parser_eq_ok, parser, none]
        simp only [if_pos first]
        cases RefType.parser (c :: cs) <;> simp [Prod.ext_iff]
      · have other : c :: cs ≠ (ref r).chars ++ rest := by
          obtain ⟨d, ds, same, known⟩ := r.chars_eq
          rw [chars, same]
          rintro ⟨⟩
          exact first known
        simp only [parser, if_neg first, other, iff_false]
        split <;> simp

namespace MethodDescriptor

theorem parametersOnto_eq_ok {done ts : List FieldType} {fuel : Nat} {cs rest : List Char}
    (enough : cs.length ≤ fuel) : parametersOnto done fuel cs = .ok (ts, rest) ↔
      ∃ more, ts = done.reverse ++ more ∧ cs = more.flatMap FieldType.chars ++ ')' :: rest := by
  induction fuel generalizing done cs with
  | zero =>
    cases List.length_eq_zero_iff.1 (Nat.le_zero.1 enough)
    simp [parametersOnto]
  | succ fuel ih =>
    unfold parametersOnto
    split
    next cs =>
      constructor
      · intro ok
        cases ok
        exact ⟨[], by simp, rfl⟩
      · rintro ⟨more, rfl, same⟩
        cases more with
        | nil =>
          cases same
          simp
        | cons t more =>
          obtain ⟨c, ds, first, other, _⟩ := t.chars_eq
          rw [List.flatMap_cons, first] at same
          cases same
          exact absurd rfl other
    next => omega
    next fuel' same more =>
      cases same
      split
      next t after read =>
        have whole := FieldType.parser_eq_ok.1 read
        obtain ⟨c, ds, first, _⟩ := t.chars_eq
        rw [ih (by simp only [whole, first, List.length_append, List.length_cons] at enough; omega)]
        constructor
        · rintro ⟨ts', rfl, rfl⟩
          exact ⟨t :: ts', by simp, by simp [whole]⟩
        · rintro ⟨ts', rfl, same⟩
          cases ts' with
          | nil => exact (more rest same).elim
          | cons t' ts' =>
            rw [List.flatMap_cons, List.append_assoc, ← FieldType.parser_eq_ok, read] at same
            cases same
            exact ⟨ts', by simp, rfl⟩
      next e failed =>
        simp only [reduceCtorEq, false_iff]
        rintro ⟨ts', rfl, same⟩
        cases ts' with
        | nil => exact more rest same
        | cons t' ts' =>
          rw [List.flatMap_cons, List.append_assoc, ← FieldType.parser_eq_ok, failed] at same
          cases same

theorem parser_eq_ok {cs rest : List Char} {d : MethodDescriptor} :
    MethodDescriptor.parser cs = .ok (d, rest) ↔ cs = d.chars ++ rest := by
  unfold MethodDescriptor.parser
  split
  next cs =>
    constructor
    · intro ok
      split at ok
      next => cases ok
      next ts after read =>
        cases ok
        obtain ⟨_, rfl, whole⟩ := (parametersOnto_eq_ok (Nat.le_refl _)).1 read
        simp [chars, whole]
      next ts after _ read =>
        split at ok
        next t after' read' =>
          cases ok
          obtain ⟨_, rfl, whole⟩ := (parametersOnto_eq_ok (Nat.le_refl _)).1 read
          simp [chars, whole, FieldType.parser_eq_ok.1 read']
        next => cases ok
    · intro whole
      obtain ⟨ts, result⟩ := d
      have read : ∀ after, cs = ts.flatMap FieldType.chars ++ ')' :: after →
          parametersOnto [] cs.length cs = .ok (ts, after) := fun after same =>
        (parametersOnto_eq_ok (Nat.le_refl _)).2 ⟨ts, rfl, same⟩
      cases result with
      | none =>
        rw [read ('V' :: rest) (by simpa [chars] using whole)]
        rfl
      | some t =>
        rw [read (t.chars ++ rest) (by simpa [chars] using whole)]
        obtain ⟨c, ds, first, _, other⟩ := t.chars_eq
        split
        next failed => cases failed
        next same =>
          simp only [Except.ok.injEq, Prod.mk.injEq, first, List.cons_append, List.cons.injEq] at same
          exact absurd same.2.1 other
        next same =>
          cases same
          rw [FieldType.parser_eq_ok.2 rfl]
  next other =>
    have different : cs ≠ d.chars ++ rest := other _
    simp [different]

end MethodDescriptor

theorem FieldType.parse_eq_ok {source : String} {t : FieldType} :
    FieldType.parse source = .ok t ↔ source.toList = t.chars := by
  rw [parse, DescriptorParser.run_eq_ok, parser_eq_ok, List.append_nil]

theorem RefType.parse_eq_ok {source : String} {r : RefType} :
    RefType.parse source = .ok r ↔ source.toList = r.chars := by
  rw [parse, DescriptorParser.run_eq_ok, parser_eq_ok, List.append_nil]

theorem MethodDescriptor.parse_eq_ok {source : String} {d : MethodDescriptor} :
    MethodDescriptor.parse source = .ok d ↔ source.toList = d.chars := by
  rw [parse, DescriptorParser.run_eq_ok, parser_eq_ok, List.append_nil]

theorem RefType.ofClassName_eq_ok {source : String} {r : RefType} :
    RefType.ofClassName source = .ok r ↔ source = r.className := by
  have plain : ∀ (n : BinaryName) cs, n.text.toList ≠ '[' :: cs := fun n cs same =>
    (n.ne_of_mem (c := '[') (by rw [same]; exact List.mem_cons_self)).2 rfl
  unfold ofClassName
  split
  next cs bracket =>
    rw [parse_eq_ok]
    cases r with
    | object n =>
      have different : source ≠ n.text := by
        rintro rfl
        exact plain n cs bracket
      simp [bracket, chars, BinaryName.descriptorChars, className, different]
    | array i e =>
      have name : className (array i e) = String.ofList (array i e).chars := rfl
      rw [name]
      constructor
      · intro same
        rw [← same, String.ofList_toList]
      · rintro rfl
        exact String.toList_ofList
  next other =>
    cases r with
    | object n =>
      rw [className, ← BinaryName.ofString_eq_ok]
      split
      next m named => simp [named]
      next e failed => simp [failed]
    | array i e =>
      have different : source ≠ className (array i e) := by
        rintro rfl
        exact other (List.replicate i '[' ++ e.chars)
          (by simp [className, render, chars, List.replicate_succ])
      simp only [different, iff_false]
      split <;> simp

/-- What is written for a value is parsed as the value, and nothing else is parsed as it. -/
def ParsesWritten {α : Type} (parse : String → Except DescriptorError α) (write : α → String) :
    Prop :=
  ∀ source x, parse source = .ok x ↔ source = write x

theorem parsesWritten_of_chars {α : Type} {parse : String → Except DescriptorError α}
    {chars : α → List Char} (read : ∀ {source x}, parse source = .ok x ↔ source.toList = chars x) :
    ParsesWritten parse fun x => String.ofList (chars x) := by
  intro source x
  rw [read, ← String.toList_inj, String.toList_ofList]

namespace RefType

theorem component?_arrayOf (t : FieldType) : (arrayOf t).component? = some t := by
  cases t with
  | base b => rfl
  | ref r => cases r <;> rfl

theorem component?_eq_some {r : RefType} {t : FieldType} :
    r.component? = some t ↔ r = arrayOf t := by
  constructor
  · intro found
    cases r with
    | object n => cases found
    | array extra element =>
      cases extra with
      | zero => cases element <;> cases found <;> rfl
      | succ extra =>
        cases found
        rfl
  · rintro rfl
    exact component?_arrayOf t

theorem isSome_component? (r : RefType) : r.component?.isSome = r.isArray := by
  cases r with
  | object n => rfl
  | array extra element => cases extra <;> rfl

end RefType

/-- Descriptors of fields and methods, and the names in class constants, are in bijection with types:
each type is parsed again from what is written for it, and each text that is parsed is what is written
for the type. An array type is the array of its component and of no other type. -/
theorem descriptors_bijective :
    ParsesWritten FieldType.parse FieldType.render ∧
    ParsesWritten RefType.parse RefType.render ∧
    ParsesWritten MethodDescriptor.parse MethodDescriptor.render ∧
    ParsesWritten RefType.ofClassName RefType.className ∧
    (∀ r t, RefType.component? r = some t ↔ r = .arrayOf t) ∧
    ∀ r : RefType, r.component?.isSome = r.isArray :=
  ⟨parsesWritten_of_chars FieldType.parse_eq_ok, parsesWritten_of_chars RefType.parse_eq_ok,
    parsesWritten_of_chars MethodDescriptor.parse_eq_ok, fun _ _ => RefType.ofClassName_eq_ok,
    fun _ _ => RefType.component?_eq_some, RefType.isSome_component?⟩

/-- Parentheses and letters of types may stand in names. -/
example : (MethodDescriptor.parse "([[L)V$;J)[I").toOption.map
    (fun d => (d.parameters.length, d.slots false, d.render)) = some (2, 3, "([[L)V$;J)[I") := by
  decide +kernel

end StackMaps
