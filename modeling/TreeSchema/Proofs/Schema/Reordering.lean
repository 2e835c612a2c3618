import TreeSchema.Proofs.Follows
import TreeSchema.Proofs.Schema.Layer
import TreeSchema.Proofs.Schema.RoundTrip
import TreeSchema.Proofs.Value.Reordering

/-!
# Schemas that differ in the order of fields only

Reading a source takes the fields of an object in the order in which they stand, but what is
read of one field does not depend on the others. So sources that differ in the order of
entries are read as schemas that differ in the order of fields, or neither is read.

* `Schema.Reordered` — schemas that are the same up to marks and the order of fields.
* `Schema.follows_ofSource` — reading follows a reordering of the source.
* `Schema.sourceHeads_eq_of_reordered` — the labels that a source meets without taking the
  value apart are the same.
-/

namespace TreeSchema

variable {α β : Type}

/-! ### Schemas -/

namespace Schema

/-- The schemas are the same up to their marks and the order of the fields of objects. -/
inductive Reordered : Schema α → Schema β → Prop where
  | scalar {mark : α} {mark' : β} {type : ScalarType} :
      Reordered (.node mark (.scalar type)) (.node mark' (.scalar type))
  | any {mark : α} {mark' : β} : Reordered (.node mark .any) (.node mark' .any)
  | enum {mark : α} {mark' : β} {members : OneOrMore Literal} :
      Reordered (.node mark (.enum members)) (.node mark' (.enum members))
  | object {mark : α} {mark' : β} {fields : Mapping (Field (Schema α))}
      {fields' : Mapping (Field (Schema β))} :
      (∀ key, key ∈ fields.keys ↔ key ∈ fields'.keys) →
      (∀ key f f', fields.get? key = some f → fields'.get? key = some f' →
        f.optional = f'.optional) →
      (∀ key f f', fields.get? key = some f → fields'.get? key = some f' →
        Reordered f.type f'.type) →
      Reordered (.node mark (.object fields)) (.node mark' (.object fields'))
  | array {mark : α} {mark' : β} {initial : List (Schema α)} {initial' : List (Schema β)}
      {rest : Schema α} {rest' : Schema β} : initial'.length = initial.length →
      (∀ (i : Nat) n n', initial[i]? = some n → initial'[i]? = some n' → Reordered n n') →
      Reordered rest rest' →
      Reordered (.node mark (.array initial rest)) (.node mark' (.array initial' rest'))
  | tuple {mark : α} {mark' : β} {elements : OneOrMore (Schema α)}
      {elements' : OneOrMore (Schema β)} : elements'.toList.length = elements.toList.length →
      (∀ (i : Nat) n n', elements.toList[i]? = some n → elements'.toList[i]? = some n' →
        Reordered n n') →
      Reordered (.node mark (.tuple elements)) (.node mark' (.tuple elements'))
  | dictionary {mark : α} {mark' : β} {values : Schema α} {values' : Schema β} :
      Reordered values values' →
      Reordered (.node mark (.dictionary values)) (.node mark' (.dictionary values'))
  | oneof {mark : α} {mark' : β} {alternatives : OneOrMore (Schema α)}
      {alternatives' : OneOrMore (Schema β)} :
      alternatives'.toList.length = alternatives.toList.length →
      (∀ (i : Nat) n n', alternatives.toList[i]? = some n → alternatives'.toList[i]? = some n' →
        Reordered n n') →
      Reordered (.node mark (.oneof alternatives)) (.node mark' (.oneof alternatives'))
  | ref {mark : α} {mark' : β} {label : String} :
      Reordered (.node mark (.ref label)) (.node mark' (.ref label))

theorem Reordered.symm {n : Schema α} {m : Schema β} (h : n.Reordered m) : m.Reordered n := by
  induction h with
  | scalar => exact .scalar
  | any => exact .any
  | enum => exact .enum
  | object keys optional _ ih =>
    refine .object (fun key => (keys key).symm) ?_ ?_
    · intro key f f' hf hf'
      exact (optional key f' f hf' hf).symm
    · intro key f f' hf hf'
      exact ih key f' f hf' hf
  | array length _ _ ihInitial ihRest =>
    exact .array length.symm (fun i n n' hn hn' => ihInitial i n' n hn' hn) ihRest
  | tuple length _ ih => exact .tuple length.symm fun i n n' hn hn' => ih i n' n hn' hn
  | dictionary _ ih => exact .dictionary ih
  | oneof length _ ih => exact .oneof length.symm fun i n n' hn hn' => ih i n' n hn' hn
  | ref => exact .ref

/-- What the items of arrays are held against, by their positions. -/
theorem Reordered.itemAt {initial : List (Schema α)} {initial' : List (Schema β)}
    {rest : Schema α} {rest' : Schema β} (length : initial'.length = initial.length)
    (parts : ∀ (i : Nat) n n', initial[i]? = some n → initial'[i]? = some n' → n.Reordered n')
    (hrest : rest.Reordered rest') (i : Nat) :
    (Rule.itemAt initial rest i).Reordered (Rule.itemAt initial' rest' i) := by
  unfold Rule.itemAt
  by_cases hi : i < initial.length
  · have hn := List.getElem?_eq_getElem hi
    have hn' := List.getElem?_eq_getElem (length ▸ hi)
    rw [hn, hn']
    exact parts i _ _ hn hn'
  · rw [List.getElem?_eq_none (by omega), List.getElem?_eq_none (by omega)]
    exact hrest

theorem Reordered.trans {γ : Type} {n : Schema α} {m : Schema β} {k : Schema γ}
    (h : n.Reordered m) (h' : m.Reordered k) : n.Reordered k := by
  induction h generalizing k with
  | scalar => cases h'; exact .scalar
  | any => cases h'; exact .any
  | enum => cases h'; exact .enum
  | @object _ _ fields fields' keys optional _ ih =>
    cases h' with
    | object keys' optional' types' =>
    have between : ∀ {key f}, fields.get? key = some f → ∃ f', fields'.get? key = some f' :=
      fun {key} _ hf =>
        ⟨_, fields'.get?_eq_some_value ((keys key).mp (Mapping.mem_keys_of_get? hf))⟩
    refine .object (fun key => (keys key).trans (keys' key)) ?_ ?_
    · intro key f f'' hf hf''
      obtain ⟨f', hf'⟩ := between hf
      exact (optional key f f' hf hf').trans (optional' key f' f'' hf' hf'')
    · intro key f f'' hf hf''
      obtain ⟨f', hf'⟩ := between hf
      exact ih key f f' hf hf' (types' key f' f'' hf' hf'')
  | array length _ _ ihInitial ihRest =>
    cases h' with
    | array length' initial' rest' =>
    refine .array (length'.trans length) ?_ (ihRest rest')
    intro i n k hn hk
    obtain ⟨m, hm⟩ := exists_getElem?_of_length length' hk
    exact ihInitial i n m hn hm (initial' i m k hm hk)
  | tuple length _ ih =>
    cases h' with
    | tuple length' parts' =>
    refine .tuple (length'.trans length) ?_
    intro i n k hn hk
    obtain ⟨m, hm⟩ := exists_getElem?_of_length length' hk
    exact ih i n m hn hm (parts' i m k hm hk)
  | dictionary _ ih =>
    cases h' with
    | dictionary h' => exact .dictionary (ih h')
  | oneof length _ ih =>
    cases h' with
    | oneof length' parts' =>
    refine .oneof (length'.trans length) ?_
    intro i n k hn hk
    obtain ⟨m, hm⟩ := exists_getElem?_of_length length' hk
    exact ih i n m hn hm (parts' i m k hm hk)
  | ref => cases h'; exact .ref

/-- The parts of a list of schemas, each of which is reordered to its image. -/
theorem reordered_of_map {f : Schema α → Schema β} {parts : List (Schema α)}
    (h : ∀ part ∈ parts, part.Reordered (f part)) (i : Nat) (n : Schema α) (n' : Schema β)
    (hn : parts[i]? = some n) (hn' : (parts.map f)[i]? = some n') : n.Reordered n' := by
  rw [List.getElem?_map, hn] at hn'
  cases hn'
  exact h n (List.mem_of_getElem? hn)

/-- The marks do not count. -/
theorem reordered_unmarked (n : Schema α) : n.Reordered n.unmarked := by
  induction n using parts_induction with
  | node mark rule ih =>
  rw [unmarked_node]
  cases rule with
  | scalar type => exact .scalar
  | any => exact .any
  | enum members => exact .enum
  | object fields =>
    have image : ∀ {key f f'}, fields.get? key = some f →
        (fields.map fun field => Field.mk field.optional field.type.unmarked).get? key = some f' →
        f' = ⟨f.optional, f.type.unmarked⟩ := by
      intro key f f' hf hf'
      rw [Mapping.get?_map, hf] at hf'
      exact (Option.some.inj hf').symm
    refine .object (fun key => by rw [Mapping.keys_map]) ?_ ?_
    · intro key f f' hf hf'
      rw [image hf hf']
    · intro key f f' hf hf'
      rw [image hf hf']
      exact ih f.type (Rule.mem_parts_of_get? hf)
  | array initial rest =>
    refine .array (List.length_map _) ?_ (ih rest (Rule.mem_parts_rest _ _))
    exact reordered_of_map fun part hp => ih part (Rule.mem_parts_initial hp)
  | tuple elements =>
    refine .tuple (by rw [OneOrMore.toList_map, List.length_map]) ?_
    rw [OneOrMore.toList_map]
    exact reordered_of_map fun part hp => ih part (Rule.mem_parts_tuple hp)
  | dictionary values => exact .dictionary (ih values (Rule.mem_parts_dictionary _))
  | oneof alternatives =>
    refine .oneof (by rw [OneOrMore.toList_map, List.length_map]) ?_
    rw [OneOrMore.toList_map]
    exact reordered_of_map fun part hp => ih part (Rule.mem_parts_oneof hp)
  | ref label => exact .ref

theorem Reordered.of_unmarked {n : Schema α} {m : Schema β}
    (h : n.unmarked.Reordered m.unmarked) : n.Reordered m :=
  (n.reordered_unmarked.trans h).trans m.reordered_unmarked.symm

end Schema

/-- The fields are declared alike and their types are the same up to the order of fields. -/
abbrev Field.Reordered (f : Field (Schema α)) (g : Field (Schema β)) : Prop :=
  f.optional = g.optional ∧ f.type.Reordered g.type

/-! ### Forms -/

/-- One or more values, reordered one by one. -/
abbrev ReorderedList (xs ys : OneOrMore Value) : Prop :=
  Pointwise (fun _ => Value.Reordered) xs.toList ys.toList

namespace Form

/-- The forms are the same up to the order of entries. -/
inductive Reordered : Form → Form → Prop where
  | scalar {type : ScalarType} : Reordered (scalar type) (scalar type)
  | any : Reordered any any
  | enum {xs ys : OneOrMore Value} : ReorderedList xs ys → Reordered (enum xs) (enum ys)
  | tuple {xs ys : OneOrMore Value} : ReorderedList xs ys → Reordered (tuple xs) (tuple ys)
  | array {xs ys : OneOrMore Value} : ReorderedList xs ys → Reordered (array xs) (array ys)
  | dictionary {x y : Value} : x.Reordered y → Reordered (dictionary x) (dictionary y)
  | oneof {xs ys : OneOrMore Value} : ReorderedList xs ys → Reordered (oneof xs) (oneof ys)
  | ref {label : String} : Reordered (ref label) (ref label)
  | object {fields others : Mapping Value} : fields.Matching Value.Reordered others →
      Reordered (object fields) (object others)

theorem follows_someArguments {directive : Directive} {xs ys : List Value}
    (h : Pointwise (fun _ => Value.Reordered) xs ys) :
    Follows ReorderedList (someArguments directive xs) (someArguments directive ys) := by
  cases xs with
  | nil => exact .error
  | cons x xs =>
    cases ys with
    | nil => exact absurd h not_pointwise_cons_nil
    | cons y ys => exact .ok h

theorem follows_ofDirective (directive : Directive) {xs ys : List Value}
    (h : Pointwise (fun _ => Value.Reordered) xs ys) :
    Follows Reordered (ofDirective directive xs) (ofDirective directive ys) := by
  have many : ∀ {make : OneOrMore Value → Form},
      (∀ {xs ys}, ReorderedList xs ys → Reordered (make xs) (make ys)) →
      Follows Reordered ((someArguments directive xs).map make)
        ((someArguments directive ys).map make) := by
    intro make hm form hf
    cases hx : someArguments directive xs with
    | error e => rw [hx] at hf; cases hf
    | ok as =>
      rw [hx] at hf
      cases hf
      obtain ⟨bs, hy, related⟩ := follows_someArguments h as hx
      rw [hy]
      exact ⟨make bs, rfl, hm related⟩
  cases directive with
  | enum => exact many .enum
  | tuple => exact many .tuple
  | array => exact many .array
  | oneof => exact many .oneof
  | dictionary =>
    intro form hf
    simp only [ofDirective] at hf
    split at hf
    · next x =>
      cases hf
      cases ys with
      | nil => exact absurd h not_pointwise_cons_nil
      | cons y ys =>
        obtain ⟨hxy, others⟩ := pointwise_cons_iff.mp h
        cases ys with
        | nil => exact ⟨.dictionary y, rfl, .dictionary hxy⟩
        | cons z zs => exact absurd others not_pointwise_nil_cons
    · cases hf
  | ref =>
    intro form hf
    simp only [ofDirective] at hf
    split at hf
    · next label =>
      cases hf
      cases ys with
      | nil => exact absurd h not_pointwise_cons_nil
      | cons y ys =>
        obtain ⟨hxy, others⟩ := pointwise_cons_iff.mp h
        rw [hxy.eq_of_isScalar rfl]
        cases ys with
        | nil => exact ⟨.ref label, rfl, .ref⟩
        | cons z zs => exact absurd others not_pointwise_nil_cons
    · cases hf
    · cases hf
  | optional => exact .error

theorem follows_ofItems {xs ys : List Value} (h : Pointwise (fun _ => Value.Reordered) xs ys) :
    Follows Reordered (ofItems xs) (ofItems ys) := by
  intro form hf
  unfold ofItems at hf
  split at hf
  · cases hf
  · next word arguments =>
    cases ys with
    | nil => exact absurd h not_pointwise_cons_nil
    | cons y ys =>
      obtain ⟨hxy, others⟩ := pointwise_cons_iff.mp h
      rw [hxy.eq_of_isScalar rfl, ofItems]
      split at hf
      · next directive _ => exact follows_ofDirective directive others form hf
      · cases hf
  · cases hf

/-- **The outermost form of a source** is the same up to the order of entries. -/
theorem follows_ofValue {v w : Value} (h : v.Reordered w) :
    Follows Reordered (ofValue v) (ofValue w) := by
  cases h with
  | @scalar v hs =>
    cases v with
    | null => exact .ok .scalar
    | string name =>
      intro form hf
      refine ⟨form, hf, ?_⟩
      simp only [ofValue, ofName] at hf
      split at hf
      · cases hf; exact .any
      · split at hf
        · cases hf; exact .scalar
        · cases hf
    | sequence items => cases hs
    | mapping fields => cases hs
    | _ => exact .error
  | sequence length related => exact follows_ofItems ⟨length.symm, related⟩
  | mapping keys related => exact .ok (.object ⟨keys, related⟩)

end Form

/-! ### Reading -/

/-- A sequence headed by a word is reordered to one headed by that word. -/
theorem Value.Reordered.exists_of_word {word : String} {arguments : List Value} {w : Value}
    (h : (Value.sequence (.string word :: arguments)).Reordered w) :
    ∃ others, w = .sequence (.string word :: others) ∧
      Pointwise (fun _ => Value.Reordered) arguments others := by
  obtain ⟨items, rfl, -, -⟩ := h.of_sequence
  cases items with
  | nil => exact absurd (reordered_sequence_iff.mp h) not_pointwise_cons_nil
  | cons y ys =>
    obtain ⟨hy, hys⟩ := pointwise_cons_iff.mp (reordered_sequence_iff.mp h)
    obtain rfl := hy.eq_of_isScalar rfl
    exact ⟨ys, rfl, hys⟩

theorem FieldForm.follows_ofValue {v w : Value} (h : v.Reordered w) :
    Follows (fun f g : FieldForm => f.optional = g.optional ∧ f.type.Reordered g.type)
      (ofValue v) (ofValue w) := by
  intro field hf
  unfold ofValue at hf
  split at hf
  · next word arguments =>
    obtain ⟨others, rfl, hothers⟩ := h.exists_of_word
    split at hf
    · next hw =>
      split at hf
      · next x =>
        cases hf
        obtain ⟨y, rfl⟩ := List.length_eq_one_iff.mp hothers.length
        refine ⟨⟨true, y⟩, ?_, rfl, (pointwise_cons_iff.mp hothers).1⟩
        simp only [ofValue, if_pos hw]
      · cases hf
    · next hw =>
      cases hf
      refine ⟨⟨false, .sequence (.string word :: others)⟩, ?_, rfl, h⟩
      simp only [ofValue, if_neg hw]
  · next headless =>
    cases hf
    refine ⟨⟨false, w⟩, ?_, rfl, h⟩
    unfold ofValue
    split
    · next word arguments =>
      obtain ⟨others, rfl, -⟩ := h.symm.exists_of_word
      exact absurd rfl (headless word others)
    · rfl

theorem Schema.follows_within {γ δ : Type} {R : γ → δ → Prop} {x : Except SchemaError γ}
    {y : Except SchemaError δ} {path path' : Path} (h : Follows R x y) :
    Follows R (within path x) (within path' y) := by
  intro a ha
  obtain ⟨b, rfl, hab⟩ := h a (within_eq_ok ha)
  exact ⟨b, rfl, hab⟩

theorem Form.follows_readArguments
    {readFragment readFragment' : Value → Except SchemaError (Schema Unit)}
    {xs ys : OneOrMore Value} (h : ReorderedList xs ys)
    (inner : ∀ x ∈ xs.toList, ∀ y, x.Reordered y →
      Follows Schema.Reordered (readFragment x) (readFragment' y)) :
    Follows (fun ns ms => Pointwise (fun _ => Schema.Reordered) ns.toList ms.toList)
      (readArguments readFragment xs) (readArguments readFragment' ys) := by
  refine OneOrMore.follows_traverse ⟨h.length, fun i x y hx hy => ?_⟩
  exact Schema.follows_within (inner x (List.mem_of_getElem? hx) y (h.related i x y hx hy))

theorem FieldForm.follows_read
    {readType readType' : Value → Except SchemaError (Schema Unit)} {key : String} {x y : Value}
    (h : x.Reordered y)
    (inner : ∀ v, v.size ≤ x.size → ∀ w, v.Reordered w →
      Follows Schema.Reordered (readType v) (readType' w)) :
    Follows Field.Reordered (FieldForm.read readType key x) (FieldForm.read readType' key y) := by
  intro field hf
  rw [FieldForm.read] at hf
  split at hf
  · cases hf
  · next form hform =>
    obtain ⟨form', hform', optional, type⟩ := FieldForm.follows_ofValue h form hform
    have types := inner form.type (FieldForm.size_le_of_ofValue hform) form'.type type
    have fields : Follows Field.Reordered (FieldForm.read readType key x)
        (FieldForm.read readType' key y) := by
      rw [FieldForm.read, FieldForm.read, hform, hform']
      exact (Schema.follows_within types).bind fun n m hnm => .ok ⟨optional, hnm⟩
    refine fields field ?_
    rw [FieldForm.read, hform]
    exact hf

/-- **Reading a form follows a reordering**, if reading the fragments inside does. -/
theorem Form.follows_read {defined defined' : String → Bool} (same : defined = defined')
    {readFragment readFragment' : Value → Except SchemaError (Schema Unit)} {form form' : Form}
    (h : form.Reordered form')
    (inner : ∀ x ∈ form.fragments, ∀ y, y.size ≤ x.size → ∀ w, y.Reordered w →
      Follows Schema.Reordered (readFragment y) (readFragment' w)) :
    Follows Schema.Reordered (form.read defined readFragment)
      (form'.read defined' readFragment') := by
  subst same
  have arguments : ∀ {xs : OneOrMore Value}, form.fragments = xs.toList → ∀ x ∈ xs.toList,
      ∀ y, x.Reordered y → Follows Schema.Reordered (readFragment x) (readFragment' y) := by
    intro xs hxs x hx
    exact inner x (hxs ▸ hx) x (Nat.le_refl _)
  cases h with
  | scalar => exact .ok .scalar
  | any => exact .ok .any
  | enum h =>
    have members : ∀ {i : Nat} {x y : Value}, x.Reordered y →
        Follows Eq (Schema.memberOfSource i x) (Schema.memberOfSource i y) := by
      intro i x y hxy member hm
      have scalar : x.isScalar = true := by
        cases x <;> first | rfl | cases hm
      rw [hxy.eq_of_isScalar scalar]
      exact ⟨member, hm, rfl⟩
    refine (OneOrMore.follows_traverse ⟨h.length, fun i x y hx hy =>
      members (h.related i x y hx hy)⟩).bind fun ls ls' hls => ?_
    obtain rfl : ls = ls' := OneOrMore.toList_inj.mp hls.eq
    exact .ok .enum
  | tuple h =>
    refine (follows_readArguments h (arguments rfl)).bind fun ns ms hnm => ?_
    exact .ok (.tuple hnm.length hnm.related)
  | array h =>
    refine (follows_readArguments h (arguments rfl)).bind fun ns ms hnm => ?_
    rw [← ns.initial_append_last, ← ms.initial_append_last] at hnm
    obtain ⟨hinitial, hlast⟩ := hnm.of_concat
    exact .ok (.array hinitial.length hinitial.related hlast)
  | @dictionary x y h =>
    refine (Schema.follows_within (inner x List.mem_cons_self x (Nat.le_refl _) y h)).bind ?_
    exact fun n m hnm => .ok (.dictionary hnm)
  | oneof h =>
    refine (follows_readArguments h (arguments rfl)).bind fun ns ms hnm => ?_
    exact .ok (.oneof hnm.length hnm.related)
  | @ref label =>
    intro n hn
    refine ⟨n, hn, ?_⟩
    simp only [read, Schema.refOfSource] at hn
    split at hn
    · cases hn; exact .ref
    · cases hn
  | @object fields others h =>
    have each : ∀ key x y, fields.get? key = some x → others.get? key = some y →
        Follows Field.Reordered (FieldForm.read readFragment key x)
          (FieldForm.read readFragment' key y) := fun key x y hx hy =>
      FieldForm.follows_read (h.related key x y hx hy)
        (inner x (Mapping.mem_values_iff.mpr ⟨key, hx⟩))
    refine (Mapping.follows_traverse h.keys each).bind fun fs gs hfg => ?_
    exact .ok (.object hfg.keys (fun key f g hf hg => (hfg.related key f g hf hg).1)
        fun key f g hf hg => (hfg.related key f g hf hg).2)

/-- **Reading a source follows a reordering of it.** -/
theorem Schema.follows_ofSource {defined defined' : String → Bool} (same : defined = defined')
    {v w : Value} (h : v.Reordered w) :
    Follows Reordered (ofSource defined v) (ofSource defined' w) := by
  induction v using Form.induction generalizing w with
  | step v ih =>
  rw [ofSource_eq, ofSource_eq]
  intro n hn
  obtain ⟨form, hform, hn⟩ := bind_eq_ok hn
  obtain ⟨form', hform', related⟩ := Form.follows_ofValue h form hform
  have inner := Form.follows_read same related fun x hx y hy w hw => ih form hform x hx y hy hw
  obtain ⟨m, hm, hnm⟩ := inner n hn
  exact ⟨m, bind_eq_ok_iff.mpr ⟨form', hform', hm⟩, hnm⟩

/-- **Reordered sources meet the same labels** by references and alternatives alone. -/
theorem Schema.sourceHeads_eq_of_reordered {v w : Value} (h : v.Reordered w) :
    sourceHeads v = sourceHeads w := by
  induction v using Form.induction generalizing w with
  | step v ih =>
  cases hv : Form.ofValue v with
  | error e =>
    have hw : ∀ form, Form.ofValue w ≠ .ok form := by
      intro form hw
      obtain ⟨form', hform', -⟩ := Form.follows_ofValue h.symm form hw
      rw [hv] at hform'
      cases hform'
    rw [sourceHeads_eq_nil (by simp [hv]) (by simp [hv]),
      sourceHeads_eq_nil (fun _ => hw _) fun _ => hw _]
  | ok form =>
    obtain ⟨form', hw, related⟩ := Form.follows_ofValue h form hv
    cases related with
    | @oneof xs ys h =>
      have inside : Pointwise (fun _ x y => sourceHeads y = sourceHeads x) xs.toList ys.toList :=
        ⟨h.length, fun i x y hx hy => (ih _ hv x (List.mem_of_getElem? hx) x (Nat.le_refl _)
          (h.related i x y hx hy)).symm⟩
      rw [sourceHeads_oneof hv, sourceHeads_oneof hw, List.flatMap_def, List.flatMap_def,
        inside.map_eq]
    | ref => rw [sourceHeads_ref hv, sourceHeads_ref hw]
    | _ =>
      rw [sourceHeads_eq_nil (by simp [hv]) (by simp [hv]),
        sourceHeads_eq_nil (by simp [hw]) (by simp [hw])]

end TreeSchema
