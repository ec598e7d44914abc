import AggregateRules.Policy.Schema
import AggregateRules.Proofs.ByteOrder
import AggregateRules.Proofs.Documents
import AggregateRules.Proofs.Fields

/-!
# Proofs/Policy — a policy is spelled out, or the first fault is told

What is right and what is wrong is said of one entry of a table.  A table is right if all its
entries are, and what is wrong with it is the fault of the first entry, in the byte order of names,
that has one.  A visit is judged by both (`Judged`), and a walk in the order of names is judged as
its visits are (`judged_foldlM`).  So it is enough to look at one field and at one entry of a
document, the section being the walk over its fields.

Where everything is right there is one section at most, with one field at most, since no name is
given twice.  So there is no way to the permissive default but to say nothing or to say `allow`
(`reject_iff_saysReject`).

**Main statement**: `spelled_out`.
-/

namespace AggregateRules.Policy

/-! ## What is right -/

/-- The one field that is known, with one of the choices. -/
def RightField (field : String × Toml.Value) : Prop :=
  field.1 = fieldName ∧ (field.2 = .string "allow" ∨ field.2 = .string "reject")

/-- The one section that is known, with no other fields. -/
def RightEntry (entry : String × Toml.Value) : Prop :=
  entry.1 = sectionName ∧ ∃ fields, entry.2 = .table fields ∧ ∀ field ∈ fields, RightField field

/-- A document with nothing in it but what is known. -/
def Plain (document : Toml.Document) : Prop := ∀ entry ∈ document, RightEntry entry

/-- A document whose section says that a second selection is a fault. -/
def SaysReject (document : Toml.Document) : Prop :=
  ∃ fields, (sectionName, .table fields) ∈ document ∧ (fieldName, .string "reject") ∈ fields

/-! ## What is wrong -/

/-- The fault of the first entry, in the byte order of names, that has one. -/
def FirstFault (faulty : String × Toml.Value → PolicyFault → Prop)
    (entries : List (String × Toml.Value)) (fault : PolicyFault) : Prop :=
  ∃ entry ∈ entries, faulty entry fault ∧
    ∀ earlier ∈ entries, compare (Utf8.bytes earlier.1) (Utf8.bytes entry.1) = .lt →
      ∀ fault', ¬ faulty earlier fault'

/-- What is wrong with a field. -/
inductive FieldFault : String × Toml.Value → PolicyFault → Prop
  | unknown {name : String} {content : Toml.Value} : name ≠ fieldName →
      FieldFault (name, content) (.unknownField name fieldName)
  | choice {name : String} : name ≠ "allow" → name ≠ "reject" →
      FieldFault (fieldName, .string name) (.unknownVariant name)
  | illTyped {content : Toml.Value} : (∀ name, content ≠ .string name) →
      FieldFault (fieldName, content) .illTyped

/-- What is wrong with the section.  A date-time appears as a table whose one field has a name of
its own. -/
inductive SectionFault : Toml.Value → PolicyFault → Prop
  | field {fields : List (String × Toml.Value)} {fault : PolicyFault} :
      FirstFault FieldFault fields fault → SectionFault (.table fields) fault
  | dateTime {written : String} :
      SectionFault (.dateTime written) (.unknownField dateTimeName fieldName)
  | illTyped {content : Toml.Value} : (∀ fields, content ≠ .table fields) →
      (∀ written, content ≠ .dateTime written) → SectionFault content .illTyped

/-- What is wrong with an entry of a document. -/
inductive EntryFault : String × Toml.Value → PolicyFault → Prop
  | unknown {name : String} {content : Toml.Value} : name ≠ sectionName →
      EntryFault (name, content) (.unknownField name sectionName)
  | inside {content : Toml.Value} {fault : PolicyFault} : SectionFault content fault →
      EntryFault (sectionName, content) fault

section Inversion

variable {name : String} {content : Toml.Value} {fault : PolicyFault}

theorem fieldFault_of_ne (h : name ≠ fieldName) :
    FieldFault (name, content) fault ↔ fault = .unknownField name fieldName := by
  constructor
  · rintro (_ | _ | _)
    · rfl
    all_goals exact absurd rfl h
  · rintro rfl
    exact .unknown h

theorem fieldFault_string : FieldFault (fieldName, .string name) fault ↔
    name ≠ "allow" ∧ name ≠ "reject" ∧ fault = .unknownVariant name := by
  constructor
  · rintro (h | ⟨hallow, hreject⟩ | h)
    · exact absurd rfl h
    · exact ⟨hallow, hreject, rfl⟩
    · exact absurd rfl (h name)
  · rintro ⟨hallow, hreject, rfl⟩
    exact .choice hallow hreject

theorem fieldFault_of_ne_string (h : ∀ name, content ≠ .string name) :
    FieldFault (fieldName, content) fault ↔ fault = .illTyped := by
  constructor
  · rintro (h' | _ | _)
    · exact absurd rfl h'
    · exact absurd rfl (h _)
    · rfl
  · rintro rfl
    exact .illTyped h

theorem sectionFault_table {fields : List (String × Toml.Value)} :
    SectionFault (.table fields) fault ↔ FirstFault FieldFault fields fault := by
  constructor
  · rintro (h | _ | ⟨h, -⟩)
    · exact h
    · exact absurd rfl (h fields)
  · exact .field

theorem sectionFault_dateTime {written : String} : SectionFault (.dateTime written) fault ↔
    fault = .unknownField dateTimeName fieldName := by
  constructor
  · rintro (_ | _ | ⟨-, h⟩)
    · rfl
    · exact absurd rfl (h written)
  · rintro rfl
    exact .dateTime

theorem sectionFault_of_ne (htable : ∀ fields, content ≠ .table fields)
    (hdate : ∀ written, content ≠ .dateTime written) :
    SectionFault content fault ↔ fault = .illTyped := by
  constructor
  · rintro (_ | _ | _)
    · exact absurd rfl (htable _)
    · exact absurd rfl (hdate _)
    · rfl
  · rintro rfl
    exact .illTyped htable hdate

theorem entryFault_of_ne (h : name ≠ sectionName) :
    EntryFault (name, content) fault ↔ fault = .unknownField name sectionName := by
  constructor
  · rintro (_ | _)
    · rfl
    · exact absurd rfl h
  · rintro rfl
    exact .unknown h

theorem entryFault_sectionName :
    EntryFault (sectionName, content) fault ↔ SectionFault content fault := by
  constructor
  · rintro (h | h)
    · exact absurd rfl h
    · exact h
  · exact .inside

end Inversion

/-! ## Judgements -/

/-- What came out is a policy exactly if everything is right, and otherwise what is wrong. -/
structure Judged (outcome : Except PolicyFault Policy) (right : Prop)
    (faulty : PolicyFault → Prop) : Prop where
  ok_iff : (∃ p, outcome = .ok p) ↔ right
  error_iff : ∀ fault, outcome = .error fault ↔ faulty fault

section Walk

variable {right right' : Prop} {told told' : PolicyFault → Prop} {found fault : PolicyFault}
  {outcome : Except PolicyFault Policy} {p : Policy}

theorem Judged.of_right (hright : right) (hnone : ∀ fault, ¬ told fault) :
    Judged (.ok p) right told where
  ok_iff := iff_of_true ⟨p, rfl⟩ hright
  error_iff fault := iff_of_false (fun h => nomatch h) (hnone fault)

theorem Judged.of_wrong (hright : ¬ right) (htold : ∀ fault, told fault ↔ fault = found) :
    Judged (.error found) right told where
  ok_iff := iff_of_false (fun ⟨_, h⟩ => nomatch h) hright
  error_iff fault := by rw [htold, Except.error.injEq, eq_comm]

theorem Judged.congr (h : Judged outcome right told) (hright : right ↔ right')
    (htold : ∀ fault, told fault ↔ told' fault) : Judged outcome right' told' where
  ok_iff := h.ok_iff.trans hright
  error_iff fault := (h.error_iff fault).trans (htold fault)

variable {faulty : String × Toml.Value → PolicyFault → Prop} {rightly : String × Toml.Value → Prop}
  {visit : Policy → String × Toml.Value → Except PolicyFault Policy}
  {entry : String × Toml.Value} {entries rest : List (String × Toml.Value)}

theorem compare_bytes_eq_lt_iff {s t : String} :
    compare (Utf8.bytes s) (Utf8.bytes t) = .lt ↔ s < t := by
  rw [Utf8.compare_bytes, Std.LawfulLTCmp.eq_lt_iff_lt]

/-- An entry before all others, if it has a fault, has the first one. -/
theorem firstFault_cons_of_faulty (hfirst : ∀ later ∈ rest, entry.1 < later.1)
    (hfound : ∀ fault, faulty entry fault ↔ fault = found) :
    FirstFault faulty (entry :: rest) fault ↔ fault = found := by
  constructor
  · rintro ⟨first, hmem, hfault, hearlier⟩
    rcases List.mem_cons.mp hmem with rfl | hmem
    · exact (hfound fault).mp hfault
    · have hlt := compare_bytes_eq_lt_iff.mpr (hfirst first hmem)
      exact absurd ((hfound found).mpr rfl) (hearlier entry List.mem_cons_self hlt found)
  · rintro rfl
    refine ⟨entry, List.mem_cons_self, (hfound fault).mpr rfl, fun earlier hmem hlt => ?_⟩
    rw [compare_bytes_eq_lt_iff] at hlt
    rcases List.mem_cons.mp hmem with rfl | hmem
    · exact absurd hlt (lt_irrefl _)
    · exact absurd hlt (lt_asymm (hfirst earlier hmem))

/-- An entry without a fault has no bearing on the first one. -/
theorem firstFault_cons_of_not_faulty (hnone : ∀ fault, ¬ faulty entry fault) :
    FirstFault faulty (entry :: rest) fault ↔ FirstFault faulty rest fault := by
  constructor
  · rintro ⟨first, hmem, hfault, hearlier⟩
    rcases List.mem_cons.mp hmem with rfl | hmem
    · exact absurd hfault (hnone fault)
    · exact ⟨first, hmem, hfault, fun earlier h => hearlier earlier (List.mem_cons_of_mem _ h)⟩
  · rintro ⟨first, hmem, hfault, hearlier⟩
    refine ⟨first, List.mem_cons_of_mem _ hmem, hfault, fun earlier h hlt => ?_⟩
    rcases List.mem_cons.mp h with rfl | h
    · exact hnone
    · exact hearlier earlier h hlt

/-- **A walk in the order of names is judged as its visits are**: it goes through where all entries
are right, and stops at the first fault otherwise. -/
theorem judged_foldlM (hin : Fields.InOrder entries)
    (hvisit : ∀ entry ∈ entries, ∀ p, Judged (visit p entry) (rightly entry) (faulty entry)) :
    Judged (entries.foldlM visit p) (∀ entry ∈ entries, rightly entry)
      (FirstFault faulty entries) := by
  induction entries generalizing p with
  | nil => exact .of_right nofun fun _ ⟨_, hmem, _⟩ => absurd hmem List.not_mem_nil
  | cons entry rest ih =>
    obtain ⟨hfirst, hin⟩ := Fields.inOrder_cons.mp hin
    obtain ⟨hentry, hrest⟩ := List.forall_mem_cons.mp hvisit
    rw [List.foldlM_cons, List.forall_mem_cons]
    have hjudged := hentry p
    -- the entry has the least name, so its own fault, if any, is the first one
    cases hp : visit p entry with
    | error found =>
      rw [hp] at hjudged
      have hwrong : ¬ rightly entry := fun h => nomatch hjudged.ok_iff.mpr h
      have hfound : ∀ fault, faulty entry fault ↔ fault = found := fun fault => by
        rw [← hjudged.error_iff, Except.error.injEq, eq_comm]
      exact .of_wrong (fun h => hwrong h.1) fun fault => firstFault_cons_of_faulty hfirst hfound
    | ok next =>
      rw [hp] at hjudged
      have hnone : ∀ fault, ¬ faulty entry fault := fun fault h =>
        nomatch (hjudged.error_iff fault).mpr h
      refine (ih hin hrest).congr ?_ fun fault => (firstFault_cons_of_not_faulty hnone).symm
      rw [and_iff_right (hjudged.ok_iff.mp ⟨next, rfl⟩)]

/-- The same for a table, whatever the order in which it has its entries. -/
theorem judged_walk (hnames : (entries.map Prod.fst).Nodup)
    (hvisit : ∀ entry ∈ entries, ∀ p, Judged (visit p entry) (rightly entry) (faulty entry)) :
    Judged ((Fields.ofPairs entries).foldlM visit p) (∀ entry ∈ entries, rightly entry)
      (FirstFault faulty entries) := by
  have hin : Judged ((Fields.ofPairs entries).foldlM visit p)
      (∀ entry ∈ Fields.ofPairs entries, rightly entry)
      (FirstFault faulty (Fields.ofPairs entries)) :=
    judged_foldlM (Fields.inOrder_ofPairs entries) fun entry hmem =>
      hvisit entry (Fields.mem_of_mem_ofPairs hmem)
  refine hin.congr ?_ fun fault => ?_
  · simp only [Fields.mem_ofPairs_iff hnames]
  · simp only [FirstFault, Fields.mem_ofPairs_iff hnames]

end Walk

/-! ## Fields, sections and documents -/

/-- A content that is neither text nor table makes no choice. -/
theorem ofContent_of_ne {content : Toml.Value} (hstring : ∀ name, content ≠ .string name)
    (htable : ∀ inside, content ≠ .table inside) :
    Overwrite.ofContent content = .error .illTyped := by
  cases content with
  | string name => exact absurd rfl (hstring name)
  | table inside => exact absurd rfl (htable inside)
  | _ => rfl

theorem visitField_fieldName (p : Policy) (content : Toml.Value) :
    visitField p (fieldName, content) =
      match Overwrite.ofContent content with
      | .ok choice => .ok { p with overwrite := choice }
      | .error fault => .error fault := by
  rw [visitField, if_pos rfl]
  cases Overwrite.ofContent content <;> rfl

theorem judged_choice (p : Policy) (name : String) :
    Judged (visitField p (fieldName, .string name)) (RightField (fieldName, .string name))
      (FieldFault (fieldName, .string name)) := by
  rw [visitField_fieldName, Overwrite.ofContent, Overwrite.named]
  split_ifs with hallow hreject
  · exact .of_right ⟨rfl, Or.inl (congrArg _ hallow)⟩ fun _ h => (fieldFault_string.mp h).1 hallow
  · exact .of_right ⟨rfl, Or.inr (congrArg _ hreject)⟩ fun _ h =>
      (fieldFault_string.mp h).2.1 hreject
  · refine .of_wrong ?_ fun fault => ?_
    · rintro ⟨-, h | h⟩
      · exact hallow (Toml.Value.string.inj h)
      · exact hreject (Toml.Value.string.inj h)
    · rw [fieldFault_string, and_iff_right hallow, and_iff_right hreject]

/-- **One field is judged.** -/
theorem judged_visitField (p : Policy) {field : String × Toml.Value}
    (htable : ∀ inside, field ≠ (fieldName, .table inside)) :
    Judged (visitField p field) (RightField field) (FieldFault field) := by
  obtain ⟨name, content⟩ := field
  by_cases hname : name = fieldName
  · subst hname
    by_cases hstring : ∃ name, content = .string name
    · obtain ⟨name, rfl⟩ := hstring
      exact judged_choice p name
    · rw [not_exists] at hstring
      have hne : ∀ inside, content ≠ .table inside := fun inside h => htable inside (by rw [h])
      rw [visitField_fieldName, ofContent_of_ne hstring hne]
      refine .of_wrong ?_ fun fault => fieldFault_of_ne_string hstring
      rintro ⟨-, h | h⟩ <;> exact hstring _ h
  · rw [visitField, if_neg hname]
    exact .of_wrong (fun h => hname h.1) fun fault => fieldFault_of_ne hname

/-- **The section is judged** as the walk over its fields is. -/
theorem judged_ofSection {content : Toml.Value} (hdistinct : content.Distinct)
    (harray : ∀ items, content ≠ .array items)
    (htable : ∀ fields, content = .table fields → ∀ inside, (fieldName, .table inside) ∉ fields) :
    Judged (ofSection content)
      (∃ fields, content = .table fields ∧ ∀ field ∈ fields, RightField field)
      (SectionFault content) := by
  cases content with
  | table fields =>
    have hne : ∀ field ∈ fields, ∀ inside, field ≠ (fieldName, .table inside) :=
      fun field hmem inside h => htable fields rfl inside (h ▸ hmem)
    have hwalk : Judged (ofSection (.table fields)) (∀ field ∈ fields, RightField field)
        (FirstFault FieldFault fields) :=
      judged_walk (Toml.distinct_table_iff.mp hdistinct).1 fun field hmem p =>
        judged_visitField p (hne field hmem)
    refine hwalk.congr ?_ fun fault => sectionFault_table.symm
    exact ⟨fun h => ⟨fields, rfl, h⟩, fun ⟨_, heq, h⟩ => Toml.Value.table.inj heq ▸ h⟩
  | array items => exact absurd rfl (harray items)
  | dateTime written => exact .of_wrong (by simp) fun fault => sectionFault_dateTime
  | string | integer | float | boolean =>
    exact .of_wrong (by simp) fun fault => sectionFault_of_ne (by simp) (by simp)

/-- **One entry of a document is judged.** -/
theorem judged_visitSection (p : Policy) {entry : String × Toml.Value}
    (hdistinct : entry.2.Distinct) (harray : ∀ items, entry ≠ (sectionName, .array items))
    (htable : ∀ fields, entry = (sectionName, .table fields) →
      ∀ inside, (fieldName, .table inside) ∉ fields) :
    Judged (visitSection p entry) (RightEntry entry) (EntryFault entry) := by
  obtain ⟨name, content⟩ := entry
  by_cases hname : name = sectionName
  · subst hname
    rw [visitSection, if_pos rfl]
    refine (judged_ofSection hdistinct (fun items h => harray items (congrArg _ h))
      fun fields h => htable fields (congrArg _ h)).congr ?_ fun fault =>
        entryFault_sectionName.symm
    exact (and_iff_right rfl).symm
  · rw [visitSection, if_neg hname]
    exact .of_wrong (fun h => hname h.1) fun fault => entryFault_of_ne hname

variable {document : Toml.Document}

/-- **A document is judged** as the walk over its entries is. -/
theorem judged_ofDocument (hdistinct : document.Distinct)
    (harray : ∀ items, (sectionName, .array items) ∉ document)
    (htable : ∀ fields, (sectionName, .table fields) ∈ document →
      ∀ inside, (fieldName, .table inside) ∉ fields) :
    Judged (ofDocument document) (Plain document) (FirstFault EntryFault document) := by
  obtain ⟨hnames, hcontents⟩ := Toml.distinct_table_iff.mp hdistinct
  exact judged_walk hnames fun entry hmem p => judged_visitSection p (hcontents entry hmem)
    (fun items h => harray items (h ▸ hmem)) fun fields h => htable fields (h ▸ hmem)

/-! ## The policy -/

/-- Entries of one name, no name given twice: there is one at most. -/
theorem eq_nil_or_singleton {name : String} : ∀ {entries : List (String × Toml.Value)},
    (entries.map Prod.fst).Nodup → (∀ entry ∈ entries, entry.1 = name) →
      entries = [] ∨ ∃ content, entries = [(name, content)]
  | [], _, _ => Or.inl rfl
  | [(_, content)], _, hname => Or.inr ⟨content, by rw [← hname _ List.mem_cons_self]⟩
  | first :: second :: rest, hnames, hname => by
      have hne := (List.nodup_cons.mp hnames).1
      rw [hname first (by simp), ← hname second (by simp)] at hne
      exact absurd List.mem_cons_self hne

/-- **What a plain document says** about second selections is what the policy does with them. -/
theorem reject_iff_saysReject (hdistinct : document.Distinct) (hplain : Plain document)
    {p : Policy} (h : ofDocument document = .ok p) :
    p.overwrite = .reject ↔ SaysReject document := by
  obtain ⟨hnames, hcontents⟩ := Toml.distinct_table_iff.mp hdistinct
  rcases eq_nil_or_singleton hnames fun entry hmem => (hplain entry hmem).1 with
    rfl | ⟨content, rfl⟩
  · obtain rfl : {} = p := Except.ok.inj h
    simp [SaysReject]
  · obtain ⟨-, fields, rfl, hright⟩ := hplain _ (List.mem_singleton_self _)
    have hfields := (Toml.distinct_table_iff.mp (hcontents _ (List.mem_singleton_self _))).1
    rcases eq_nil_or_singleton hfields fun field hmem => (hright field hmem).1 with
      rfl | ⟨choice, rfl⟩
    · obtain rfl : {} = p := Except.ok.inj h
      simp [SaysReject]
    · obtain ⟨-, rfl | rfl⟩ := hright _ (List.mem_singleton_self _)
      · obtain rfl : { overwrite := .allow } = p := Except.ok.inj h
        simp [SaysReject]
      · obtain rfl : { overwrite := .reject } = p := Except.ok.inj h
        simp [SaysReject]

/-- **A policy is spelled out, or the first fault is told.**  A text's document gives no name
twice.  For every such document whose section, if any, is no array and whose field, if any, is no
table: there is a policy exactly if the document is plain; it rejects exactly if the document says
so; and the fault, if there is one, is the first in the byte order of names, where the section takes
its turn with the first fault of its fields. -/
theorem spelled_out :
    (∀ text document, Toml.parse text = some document →
      document.Distinct ∧ ofText text = ofDocument document) ∧
    ∀ document : Toml.Document, document.Distinct →
      (∀ items, (sectionName, .array items) ∉ document) →
      (∀ fields, (sectionName, .table fields) ∈ document →
        ∀ inside, (fieldName, .table inside) ∉ fields) →
      ((∃ p, ofDocument document = .ok p) ↔ Plain document) ∧
      (∀ p, ofDocument document = .ok p → (p.overwrite = .reject ↔ SaysReject document)) ∧
      ∀ fault, ofDocument document = .error fault ↔ FirstFault EntryFault document fault := by
  refine ⟨fun text document h => ⟨Toml.parse_distinct h, ?_⟩,
    fun document hdistinct harray htable => ?_⟩
  · rw [ofText, h]
  · have hjudged := judged_ofDocument hdistinct harray htable
    refine ⟨hjudged.ok_iff, fun p h => ?_, hjudged.error_iff⟩
    exact reject_iff_saysReject hdistinct (hjudged.ok_iff.mp ⟨p, h⟩) h

/-- Three keys are wrong, and the one that is told is neither the first in the text nor the first at
the top: `aggregate` comes before `zeta`, and inside it `factory_overwrite` before `strict`. -/
theorem choice_told_before_keys :
    let fields := [("strict", .boolean true), (fieldName, .string "forbid")]
    let document : Toml.Document := [("zeta", .integer "1"), (sectionName, .table fields)]
    document.Distinct ∧ (∀ items, (sectionName, .array items) ∉ document) ∧
      (∀ fields, (sectionName, .table fields) ∈ document →
        ∀ inside, (fieldName, .table inside) ∉ fields) ∧
      ofDocument document = .error (.unknownVariant "forbid") ∧ ¬ Plain document := by
  intro fields document
  have hfields : (Toml.Value.table fields).Distinct := by
    refine .table (by decide) ?_
    simp only [fields, List.forall_mem_cons]
    exact ⟨.boolean true, .string "forbid", nofun⟩
  have hdistinct : document.Distinct := by
    refine .table (by decide) ?_
    simp only [document, List.forall_mem_cons]
    exact ⟨.integer "1", hfields, nofun⟩
  have harray : ∀ items, (sectionName, .array items) ∉ document := by simp [document]
  have htable : ∀ fields, (sectionName, .table fields) ∈ document →
      ∀ inside, (fieldName, .table inside) ∉ fields := by
    simp [document, fields, sectionName]
  have hchoice : FirstFault FieldFault fields (.unknownVariant "forbid") := by
    refine ⟨(fieldName, .string "forbid"), by simp [fields], .choice (by decide) (by decide), ?_⟩
    simp only [fields, List.forall_mem_cons, compare_bytes_eq_lt_iff]
    exact ⟨fun h => absurd h (by decide), fun h => absurd h (by decide), nofun⟩
  have hfirst : FirstFault EntryFault document (.unknownVariant "forbid") := by
    refine ⟨(sectionName, .table fields), by simp [document], .inside (.field hchoice), ?_⟩
    simp only [document, List.forall_mem_cons, compare_bytes_eq_lt_iff]
    exact ⟨fun h => absurd h (by decide), fun h => absurd h (by decide), nofun⟩
  obtain ⟨hok, -, herror⟩ := spelled_out.2 document hdistinct harray htable
  have hfault := (herror _).mpr hfirst
  refine ⟨hdistinct, harray, htable, hfault, fun hplain => ?_⟩
  obtain ⟨p, hp⟩ := hok.mpr hplain
  rw [hfault] at hp
  contradiction

end AggregateRules.Policy
