import Mathlib.Data.List.Perm.Basic
import AggregateRules.DataType.Tagged
import AggregateRules.Proofs.Fields
import AggregateRules.Value.Tagged

/-!
# Proofs/Written — what is written down is read back

An object lists its entries in the order in which they were met, so one value has as many written
forms as there are orders of the entries in it, at any depth (`Tree.Reordered`).  Reading follows
writing constructor by constructor.  Only a record has entries of which there may be any number: met
in another order, the same fields are read in another order (`decodeFields_of_perm`), and the record
that they make does not tell the order (`Fields.InOrder.ofPairs_eq_of_perm`), given that its own
fields were in order before.  That they were is what `Value.Canonical` says, and it is no more than
what reading grants (`canonical_of_decode`).

**Main statement** (`written_form_lossless`): values and types are read back from any of their
written forms, so no two of them share one.
-/

namespace AggregateRules

namespace Tree

/-! ## Trees with their entries in another order -/

mutual

/-- One tree is another with the entries of its objects in another order, at any depth. -/
inductive Reordered : Tree → Tree → Prop
  | null : Reordered .null .null
  | bool (b : Bool) : Reordered (.bool b) (.bool b)
  | integer (n : Int) : Reordered (.integer n) (.integer n)
  | decimal (written : String) : Reordered (.decimal written) (.decimal written)
  | text (s : String) : Reordered (.text s) (.text s)
  | list {ts us : List Tree} (h : ItemsReordered ts us) : Reordered (.list ts) (.list us)
  | object {es fs gs : List (String × Tree)} (h : EntriesReordered es fs) (hperm : fs.Perm gs) :
      Reordered (.object es) (.object gs)

/-- Each item has its entries in another order. -/
inductive ItemsReordered : List Tree → List Tree → Prop
  | nil : ItemsReordered [] []
  | cons {t u : Tree} {ts us : List Tree} (h : Reordered t u) (hrest : ItemsReordered ts us) :
      ItemsReordered (t :: ts) (u :: us)

/-- What stands under each key has its entries in another order. -/
inductive EntriesReordered : List (String × Tree) → List (String × Tree) → Prop
  | nil : EntriesReordered [] []
  | cons {key : String} {t u : Tree} {es fs : List (String × Tree)} (h : Reordered t u)
      (hrest : EntriesReordered es fs) : EntriesReordered ((key, t) :: es) ((key, u) :: fs)

end

mutual

theorem Reordered.refl : ∀ t : Tree, Reordered t t
  | .null => .null
  | .bool b => .bool b
  | .integer n => .integer n
  | .decimal written => .decimal written
  | .text s => .text s
  | .list items => .list (ItemsReordered.refl items)
  | .object entries => .object (EntriesReordered.refl entries) (.refl entries)

theorem ItemsReordered.refl : ∀ ts : List Tree, ItemsReordered ts ts
  | [] => .nil
  | t :: ts => .cons (Reordered.refl t) (ItemsReordered.refl ts)

theorem EntriesReordered.refl : ∀ es : List (String × Tree), EntriesReordered es es
  | [] => .nil
  | (_, t) :: es => .cons (Reordered.refl t) (EntriesReordered.refl es)

end

variable {key key' : String} {s t u : Tree} {es : List (String × Tree)}

/-- **An object of one entry has one order.** -/
theorem Reordered.of_single (h : Reordered (.object [(key, t)]) s) :
    ∃ u, s = .object [(key, u)] ∧ Reordered t u := by
  cases h with
  | object hentries hperm =>
    cases hentries with
    | cons ht hrest =>
      cases hrest
      rw [List.singleton_perm] at hperm
      exact ⟨_, congrArg Tree.object hperm.symm, ht⟩

theorem eq_or_eq_of_perm_pair {α : Type} {a b : α} : ∀ {l : List α}, l.Perm [a, b] →
    l = [a, b] ∨ l = [b, a]
  | l, h => by
      obtain ⟨x, y, rfl⟩ := List.length_eq_two.mp h.length_eq
      rcases List.mem_pair.mp (h.mem_iff.mp List.mem_cons_self) with rfl | rfl
      · have hy := List.perm_singleton.mp ((List.perm_cons x).mp h)
        exact Or.inl (congrArg (x :: ·) hy)
      · have hy := List.perm_singleton.mp ((List.perm_cons x).mp (h.trans (List.Perm.swap ..)))
        exact Or.inr (congrArg (x :: ·) hy)

/-- **An object of two entries has two orders.** -/
theorem Reordered.of_pair (h : Reordered (.object [(key, t), (key', u)]) s) :
    ∃ t' u', Reordered t t' ∧ Reordered u u' ∧
      (s = .object [(key, t'), (key', u')] ∨ s = .object [(key', u'), (key, t')]) := by
  cases h with
  | object hentries hperm =>
    cases hentries with
    | cons ht hrest =>
      cases hrest with
      | cons hu hnil =>
        cases hnil
        exact ⟨_, _, ht, hu, (eq_or_eq_of_perm_pair hperm.symm).imp (congrArg Tree.object)
          (congrArg Tree.object)⟩

end Tree

/-! ## Types -/

namespace DataType

/-- **A type is read back from what is written down**, in whatever order the entries are met. -/
theorem decode_of_reordered : ∀ (type : DataType) {t : Tree}, type.encode.Reordered t →
    decode t = some type
  | named name, t, h => by
      obtain ⟨u, rfl, hu⟩ := Tree.Reordered.of_single h
      cases hu
      simp [decode]
  | list element, t, h => by
      obtain ⟨u, rfl, hu⟩ := Tree.Reordered.of_single h
      have ih := decode_of_reordered element hu
      cases u with
      | object entries => simp [decode, ih]
      | _ => simp [decode] at ih
  | group key element, t, h => by
      obtain ⟨u, rfl, hu⟩ := Tree.Reordered.of_single h
      obtain ⟨k, e, hk, he, rfl | rfl⟩ := Tree.Reordered.of_pair hu
      · simp [decode, decodeEntry, decode_of_reordered key hk, decode_of_reordered element he]
      · simp [decode, decodeEntry, decode_of_reordered key hk, decode_of_reordered element he]

end DataType

/-! ## Values -/

namespace Value

mutual

/-- The fields of every record in a value stand in the order of their names, each name once. -/
def Canonical : Value → Prop
  | group key elements => key.Canonical ∧ ItemsCanonical elements
  | list items => ItemsCanonical items
  | record fields => Fields.InOrder fields ∧ FieldsCanonical fields
  | _ => True

/-- Each item is canonical. -/
def ItemsCanonical : List Value → Prop
  | [] => True
  | v :: vs => v.Canonical ∧ ItemsCanonical vs

/-- The content of each field is canonical. -/
def FieldsCanonical : List (String × Value) → Prop
  | [] => True
  | (_, v) :: rest => v.Canonical ∧ FieldsCanonical rest

end

theorem fieldsCanonical_iff : ∀ {fields : List (String × Value)},
    FieldsCanonical fields ↔ ∀ field ∈ fields, field.2.Canonical
  | [] => by simp [FieldsCanonical]
  | (_, v) :: rest => by
      have ih : FieldsCanonical rest ↔ _ := fieldsCanonical_iff
      simp [FieldsCanonical, ih]

theorem signedWord?_toInt (n : Int64) : (Tree.integer n.toInt).signedWord? = some n := by
  have hrange : Int64.minValue.toInt ≤ n.toInt ∧ n.toInt ≤ Int64.maxValue.toInt :=
    ⟨Int64.le_toInt n, Int64.toInt_le n⟩
  rw [Tree.signedWord?, if_pos hrange, Int64.ofInt_toInt]

theorem unsignedWord?_toNat (n : UInt64) : (Tree.integer n.toNat).unsignedWord? = some n := by
  have hrange : (0 : Int) ≤ n.toNat ∧ (n.toNat : Int) < UInt64.size := by
    have := n.toNat_lt_size
    omega
  rw [Tree.unsignedWord?, if_pos hrange, Int.toNat_natCast, UInt64.ofNat_toNat]

/-- **Fields are read one by one**, in the order in which they are met. -/
theorem decodeFields_eq_some_iff : ∀ {es : List (String × Tree)} {fields : List (String × Value)},
    decodeFields es = some fields ↔
      List.Forall₂ (fun e field => e.1 = field.1 ∧ decode e.2 = some field.2) es fields
  | [], fields => by simp [decodeFields, eq_comm]
  | (name, t) :: es, fields => by
      have ih : ∀ {rest}, decodeFields es = some rest ↔ _ := decodeFields_eq_some_iff
      simp only [decodeFields, Option.bind_eq_bind, Option.bind_eq_some_iff, Option.pure_def,
        Option.some.injEq, List.forall₂_cons_left_iff, ← ih]
      constructor
      · rintro ⟨v, hv, rest, hrest, rfl⟩
        exact ⟨_, _, ⟨rfl, hv⟩, hrest, rfl⟩
      · rintro ⟨⟨_, v⟩, rest, ⟨rfl, hv⟩, hrest, rfl⟩
        exact ⟨v, hv, rest, hrest, rfl⟩

/-- **In another order the same fields are read**, in that order. -/
theorem decodeFields_of_perm {es es' : List (String × Tree)} {fields : List (String × Value)}
    (hperm : es.Perm es') (h : decodeFields es = some fields) :
    ∃ pairs, decodeFields es' = some pairs ∧ fields.Perm pairs := by
  obtain ⟨pairs, hpairs, hsame⟩ :=
    List.perm_comp_forall₂ hperm.symm (decodeFields_eq_some_iff.mp h)
  exact ⟨pairs, decodeFields_eq_some_iff.mpr hpairs, hsame.symm⟩

/-! ### Reading back -/

mutual

/-- **A value is read back from what is written down**, in whatever order the entries are met. -/
theorem decode_of_reordered : ∀ (v : Value) {t : Tree}, v.Canonical → v.encode.Reordered t →
    decode t = some v
  | bool b, t, _, h => by
      obtain ⟨u, rfl, hu⟩ := Tree.Reordered.of_single h
      cases hu
      simp [decode, decodeScalar]
  | group key elements, t, hv, h => by
      obtain ⟨u, rfl, hu⟩ := Tree.Reordered.of_single h
      obtain ⟨k, e, hk, he, horder⟩ := Tree.Reordered.of_pair hu
      cases he with
      | list hitems =>
        have hkey := decode_of_reordered key hv.1 hk
        have helements := decodeItems_of_reordered elements hv.2 hitems
        rcases horder with rfl | rfl
        · simp [decode, decodeEntry, decodeItemsEntry, decodeSequence, hkey, helements]
        · simp [decode, decodeEntry, decodeItemsEntry, decodeSequence, hkey, helements]
  | int n, t, _, h => by
      obtain ⟨u, rfl, hu⟩ := Tree.Reordered.of_single h
      cases hu
      simp [decode, decodeScalar, signedWord?_toInt]
  | list items, t, hv, h => by
      obtain ⟨u, rfl, hu⟩ := Tree.Reordered.of_single h
      cases hu with
      | list hitems => simp [decode, decodeItems_of_reordered items hv hitems]
  | null, t, _, h => by
      cases h
      simp [decode]
  | record fields, t, hv, h => by
      obtain ⟨u, rfl, hu⟩ := Tree.Reordered.of_single h
      cases hu with
      | object hentries hperm =>
        obtain ⟨pairs, hpairs, hsame⟩ :=
          decodeFields_of_perm hperm (decodeFields_of_reordered fields hv.2 hentries)
        simp [decode, hpairs, ofPairs, hv.1.ofPairs_eq_of_perm hsame]
  | text s, t, _, h => by
      obtain ⟨u, rfl, hu⟩ := Tree.Reordered.of_single h
      cases hu
      simp [decode, decodeScalar]
  | uint n, t, _, h => by
      obtain ⟨u, rfl, hu⟩ := Tree.Reordered.of_single h
      cases hu
      simp [decode, decodeScalar, unsignedWord?_toNat]

theorem decodeItems_of_reordered : ∀ (vs : List Value) {ts : List Tree}, ItemsCanonical vs →
    Tree.ItemsReordered (encodeItems vs) ts → decodeItems ts = some vs
  | [], _, _, h => by
      cases h
      rfl
  | v :: vs, _, hvs, h => by
      cases h with
      | cons ht hrest =>
        simp [decodeItems, decode_of_reordered v hvs.1 ht, decodeItems_of_reordered vs hvs.2 hrest]

theorem decodeFields_of_reordered : ∀ (fields : List (String × Value))
    {es : List (String × Tree)}, FieldsCanonical fields →
    Tree.EntriesReordered (encodeFields fields) es → decodeFields es = some fields
  | [], _, _, h => by
      cases h
      rfl
  | (name, v) :: rest, _, hfields, h => by
      cases h with
      | cons ht hrest =>
        simp [decodeFields, decode_of_reordered v hfields.1 ht,
          decodeFields_of_reordered rest hfields.2 hrest]

end

/-! ### What is read is canonical -/

theorem canonical_of_decodeScalar {tag : String} {body : Tree} {v : Value}
    (h : decodeScalar tag body = some v) : v.Canonical := by
  unfold decodeScalar at h
  split at h
  · obtain ⟨n, -, rfl⟩ := Option.map_eq_some_iff.mp h
    trivial
  · split at h
    · obtain ⟨n, -, rfl⟩ := Option.map_eq_some_iff.mp h
      trivial
    · split at h <;> first | exact Option.some.inj h ▸ trivial | exact absurd h (by simp)

theorem canonical_ofPairs {pairs : List (String × Value)} (h : FieldsCanonical pairs) :
    (ofPairs pairs).Canonical := by
  rw [fieldsCanonical_iff] at h
  refine ⟨Fields.inOrder_ofPairs pairs, fieldsCanonical_iff.mpr fun field hfield => h field ?_⟩
  exact Fields.mem_of_mem_ofPairs hfield

/-- An object of several entries is no value. -/
theorem decode_object_cons_cons (e e' : String × Tree) (es : List (String × Tree)) :
    decode (.object (e :: e' :: es)) = none := by
  obtain ⟨_, t⟩ := e
  cases t <;> rfl

mutual

/-- **What is read is canonical.** -/
theorem canonical_of_decode : ∀ (t : Tree) {v : Value}, decode t = some v → v.Canonical
  | .null, _, h | .bool _, _, h | .integer _, _, h | .decimal _, _, h | .list _, _, h
  | .object [], _, h => by simp [decode] at h
  | .object (_ :: _ :: _), _, h => by simp [decode_object_cons_cons] at h
  | .text tag, v, h => by
      obtain ⟨-, rfl⟩ : tag = "Null" ∧ null = v := by simpa [decode] using h
      trivial
  | .object [(tag, .null)], _, h | .object [(tag, .bool _)], _, h
  | .object [(tag, .integer _)], _, h | .object [(tag, .decimal _)], _, h
  | .object [(tag, .text _)], _, h => canonical_of_decodeScalar (by simpa [decode] using h)
  | .object [(tag, .list items)], v, h => by
      rw [decode] at h
      split at h
      · obtain ⟨vs, hvs, rfl⟩ := Option.map_eq_some_iff.mp h
        exact itemsCanonical_of_decodeItems items hvs
      · split at h
        · exact canonical_of_decodePositions items h
        · exact absurd h (by simp)
  | .object [(tag, .object entries)], v, h => by
      rw [decode] at h
      split at h
      · obtain ⟨pairs, hpairs, rfl⟩ := Option.map_eq_some_iff.mp h
        exact canonical_ofPairs (fieldsCanonical_of_decodeFields entries hpairs)
      · split at h
        · simp only [Option.bind_eq_bind, Option.bind_eq_some_iff, Option.pure_def,
            Option.some.injEq] at h
          obtain ⟨key, hkey, elements, helements, rfl⟩ := h
          exact ⟨canonical_of_decodeEntry entries hkey,
            itemsCanonical_of_decodeItemsEntry entries helements⟩
        · exact absurd h (by simp)

theorem canonical_of_decodePositions : ∀ (ts : List Tree) {v : Value},
    decodePositions ts = some v → v.Canonical
  | [key, elements], v, h => by
      simp only [decodePositions, Option.bind_eq_bind, Option.bind_eq_some_iff, Option.pure_def,
        Option.some.injEq] at h
      obtain ⟨k, hk, vs, hvs, rfl⟩ := h
      exact ⟨canonical_of_decode key hk, itemsCanonical_of_decodeSequence elements hvs⟩
  | [], _, h | [_], _, h | _ :: _ :: _ :: _, _, h => by simp [decodePositions] at h

theorem itemsCanonical_of_decodeSequence : ∀ (t : Tree) {vs : List Value},
    decodeSequence t = some vs → ItemsCanonical vs
  | .list items, _, h => itemsCanonical_of_decodeItems items h
  | .null, _, h | .bool _, _, h | .integer _, _, h | .decimal _, _, h | .text _, _, h
  | .object _, _, h => by simp [decodeSequence] at h

theorem itemsCanonical_of_decodeItems : ∀ (ts : List Tree) {vs : List Value},
    decodeItems ts = some vs → ItemsCanonical vs
  | [], vs, h => by
      obtain rfl : [] = vs := by simpa [decodeItems] using h
      trivial
  | t :: ts, vs, h => by
      simp only [decodeItems, Option.bind_eq_bind, Option.bind_eq_some_iff, Option.pure_def,
        Option.some.injEq] at h
      obtain ⟨v, hv, rest, hrest, rfl⟩ := h
      exact ⟨canonical_of_decode t hv, itemsCanonical_of_decodeItems ts hrest⟩

theorem fieldsCanonical_of_decodeFields : ∀ (es : List (String × Tree))
    {fields : List (String × Value)}, decodeFields es = some fields → FieldsCanonical fields
  | [], fields, h => by
      obtain rfl : [] = fields := by simpa [decodeFields] using h
      trivial
  | (name, t) :: es, fields, h => by
      simp only [decodeFields, Option.bind_eq_bind, Option.bind_eq_some_iff, Option.pure_def,
        Option.some.injEq] at h
      obtain ⟨v, hv, rest, hrest, rfl⟩ := h
      exact ⟨canonical_of_decode t hv, fieldsCanonical_of_decodeFields es hrest⟩

theorem canonical_of_decodeEntry {key : String} : ∀ (es : List (String × Tree)) {v : Value},
    decodeEntry key es = some v → v.Canonical
  | [], _, h => by simp [decodeEntry] at h
  | (name, t) :: es, v, h => by
      rw [decodeEntry] at h
      split at h
      · split at h
        · exact absurd h (by simp)
        · exact canonical_of_decode t h
      · exact canonical_of_decodeEntry es h

theorem itemsCanonical_of_decodeItemsEntry {key : String} : ∀ (es : List (String × Tree))
    {vs : List Value}, decodeItemsEntry key es = some vs → ItemsCanonical vs
  | [], _, h => by simp [decodeItemsEntry] at h
  | (name, t) :: es, vs, h => by
      rw [decodeItemsEntry] at h
      split at h
      · split at h
        · exact absurd h (by simp)
        · exact itemsCanonical_of_decodeSequence t h
      · exact itemsCanonical_of_decodeItemsEntry es h

end

/-- **The canonical values are those that can be read.** -/
theorem canonical_iff_exists_decode {v : Value} : v.Canonical ↔ ∃ t, decode t = some v :=
  ⟨fun hv => ⟨v.encode, decode_of_reordered v hv (.refl v.encode)⟩,
    fun ⟨t, ht⟩ => canonical_of_decode t ht⟩

end Value

/-- **Values and types are read back from what is written down**, in whatever order the entries of
its objects are met; so two values with one written form, up to the order of entries, are one value,
and so are two types.  The values that this is about are all those that can be read. -/
theorem written_form_lossless :
    (∀ v : Value, v.Canonical → Value.decode v.encode = some v ∧
      ∀ t, v.encode.Reordered t → Value.decode t = some v) ∧
    (∀ v w : Value, v.Canonical → w.Canonical →
      ∀ t, v.encode.Reordered t → w.encode.Reordered t → v = w) ∧
    (∀ v : Value, v.Canonical ↔ ∃ t, Value.decode t = some v) ∧
    (∀ type : DataType, DataType.decode type.encode = some type ∧
      ∀ t, type.encode.Reordered t → DataType.decode t = some type) ∧
    ∀ type type' : DataType, ∀ t, type.encode.Reordered t → type'.encode.Reordered t →
      type = type' := by
  refine ⟨fun v hv => ⟨v.decode_of_reordered hv (.refl _), fun t => v.decode_of_reordered hv⟩,
    fun v w hv hw t ht ht' => ?_, fun v => Value.canonical_iff_exists_decode,
    fun type => ⟨type.decode_of_reordered (.refl _), fun t => type.decode_of_reordered⟩,
    fun type type' t ht ht' => ?_⟩
  · exact Option.some.inj ((v.decode_of_reordered hv ht).symm.trans (w.decode_of_reordered hw ht'))
  · exact Option.some.inj ((type.decode_of_reordered ht).symm.trans (type'.decode_of_reordered ht'))

/-- A bucket with a record in it, the entries met in other orders; the integers are of one number
and of two kinds. -/
theorem lossless_in_other_orders :
    let v : Value := .group (.int 3) [.record [("a", .uint 3), ("b", .list [.null, .text "x"])]]
    let a : String × Tree := ("a", .object [("Uint", .integer 3)])
    let b : String × Tree :=
      ("b", .object [("List", .list [.text "Null", .object [("Text", .text "x")]])])
    let t : Tree := .object [("Group", .object
      [("elements", .list [.object [("Record", .object [b, a])]]),
        ("key", .object [("Int", .integer 3)])])]
    v.Canonical ∧ v.encode.Reordered t ∧ Value.decode t = some v := by
  intro v a b t
  have hv : v.Canonical :=
    ⟨trivial, ⟨by unfold Fields.InOrder; decide, trivial, ⟨trivial, trivial, trivial⟩, trivial⟩,
      trivial⟩
  have hrecord : Tree.Reordered (.object [("Record", .object [a, b])])
      (.object [("Record", .object [b, a])]) :=
    .object (.cons (.object (.refl _) (.swap b a [])) .nil) (.refl _)
  have ht : v.encode.Reordered t :=
    .object (.cons (.object (.cons (.refl _) (.cons (.list (.cons hrecord .nil)) .nil))
      (.swap _ _ [])) .nil) (.refl _)
  exact ⟨hv, ht, (written_form_lossless.1 v hv).2 t ht⟩

end AggregateRules
