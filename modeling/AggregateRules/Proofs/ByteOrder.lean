import Mathlib.Data.String.Basic

/-!
# Proofs/ByteOrder — texts stand in the order of their bytes

Texts are compared character by character, by code point.  Written in UTF-8 a text is a sequence of
bytes, and comparing those gives the same order (`compare_bytes`).  The reason is the form that one
character takes (`utf8EncodeChar_eq`): a first byte that grows with the number of bytes after it and,
for one number, with the high bits of the code point, and then the other bits in digits of six, the
high digits first.
-/

namespace AggregateRules.Utf8

/-- The bytes of a text. -/
def bytes (s : String) : List UInt8 := s.toByteArray.data.toList

/-! ## The bytes of a character -/

/-- How many bytes follow the first one of a code point. -/
def trailing (v : Nat) : Nat :=
  if v ≤ 127 then 0 else if v ≤ 2047 then 1 else if v ≤ 65535 then 2 else 3

/-- What marks a first byte that so many bytes follow. -/
def marker : Nat → Nat
  | 0 => 0
  | 1 => 192
  | 2 => 224
  | _ => 240

/-- The first byte of a code point: the bits above those of the other bytes, and the mark. -/
def lead (v : Nat) : Nat := v / 64 ^ trailing v + marker (trailing v)

/-- The bytes that hold the low digits of a code point, six bits each. -/
def continuation : (count v : Nat) → List UInt8
  | 0, _ => []
  | k + 1, v => UInt8.ofNat (v / 64 ^ k % 64 + 128) :: continuation k v

theorem toNat_lt_unicode (c : Char) : c.toNat < 0x110000 := by
  have := c.valid
  simp only [UInt32.isValidChar, Nat.isValidChar] at this
  simp only [Char.toNat]
  omega

theorem trailing_mono {v w : Nat} (h : v ≤ w) : trailing v ≤ trailing w := by
  unfold trailing
  split_ifs <;> omega

theorem lead_lt_of_trailing_lt {v w : Nat} (h : trailing v < trailing w) : lead v < lead w := by
  unfold lead trailing at *
  split_ifs at * <;> simp only [marker] at * <;> omega

theorem lead_lt_byte {v : Nat} (h : v < 0x110000) : lead v < 256 := by
  unfold lead trailing
  split_ifs <;> simp only [marker] <;> omega

/-- **The form of a character**: its first byte, and its low bits in digits of six. -/
theorem utf8EncodeChar_eq (c : Char) :
    String.utf8EncodeChar c =
      UInt8.ofNat (lead c.toNat) :: continuation (trailing c.toNat) c.toNat := by
  have hvalid := toNat_lt_unicode c
  -- in range, the high bits fit beside the mark
  simp only [String.utf8EncodeChar, lead, trailing, Char.toNat_val]
  split_ifs
  · simp [marker, continuation]
  · have : c.toNat / 64 % 32 = c.toNat / 64 := by omega
    simp [marker, continuation, this]
  · have : c.toNat / 4096 % 16 = c.toNat / 4096 := by omega
    simp [marker, continuation, this]
  · have : c.toNat / 262144 % 8 = c.toNat / 262144 := by omega
    simp [marker, continuation, this]

/-! ## Greater characters have greater bytes -/

theorem ofNat_lt_ofNat {m n : Nat} (h : m < n) (hn : n < 256) : UInt8.ofNat m < UInt8.ofNat n := by
  rw [UInt8.lt_iff_toNat_lt, UInt8.toNat_ofNat_of_lt' (h.trans hn), UInt8.toNat_ofNat_of_lt' hn]
  exact h

/-- Of two code points with the same high digits the greater has the greater low digits. -/
theorem continuation_lt {v w : Nat} (h : v < w) (xs ys : List UInt8) : ∀ {count : Nat},
    v / 64 ^ count = w / 64 ^ count → continuation count v ++ xs < continuation count w ++ ys
  | 0, heq => by
      rw [Nat.pow_zero, Nat.div_one, Nat.div_one] at heq
      exact absurd heq h.ne
  | k + 1, heq => by
      rw [Nat.pow_succ, ← Nat.div_div_eq_div_mul, ← Nat.div_div_eq_div_mul] at heq
      rw [continuation, continuation, List.cons_append, List.cons_append, List.cons_lt_cons_iff]
      rcases (Nat.div_le_div_right (c := 64 ^ k) h.le).lt_or_eq with hlt | heq'
      · exact Or.inl (ofNat_lt_ofNat (by omega) (by omega))
      · exact Or.inr ⟨by rw [heq'], continuation_lt h xs ys heq'⟩

/-- **A greater character has greater bytes**, whatever follows. -/
theorem utf8EncodeChar_lt {c d : Char} (h : c < d) (xs ys : List UInt8) :
    String.utf8EncodeChar c ++ xs < String.utf8EncodeChar d ++ ys := by
  have hlt : c.toNat < d.toNat := h
  have hbyte := lead_lt_byte (toNat_lt_unicode d)
  rw [utf8EncodeChar_eq, utf8EncodeChar_eq, List.cons_append, List.cons_append,
    List.cons_lt_cons_iff]
  rcases (trailing_mono hlt.le).lt_or_eq with hcount | hcount
  · exact Or.inl (ofNat_lt_ofNat (lead_lt_of_trailing_lt hcount) hbyte)
  · rcases (Nat.div_le_div_right (c := 64 ^ trailing c.toNat) hlt.le).lt_or_eq with hhigh | hhigh
    · refine Or.inl (ofNat_lt_ofNat ?_ hbyte)
      rw [lead, lead, ← hcount]
      exact Nat.add_lt_add_right hhigh _
    · refine Or.inr ⟨by rw [lead, lead, ← hcount, hhigh], ?_⟩
      rw [← hcount]
      exact continuation_lt hlt xs ys hhigh

/-! ## Greater texts have greater bytes -/

theorem bytes_eq (s : String) : bytes s = s.toList.flatMap String.utf8EncodeChar := by
  rw [bytes, ← String.utf8Encode_toList, List.utf8Encode]
  simp

theorem flatMap_utf8EncodeChar_lt : ∀ {cs ds : List Char}, cs < ds →
    cs.flatMap String.utf8EncodeChar < ds.flatMap String.utf8EncodeChar
  | _, [], h => absurd h (List.not_lt_nil _)
  | [], d :: ds, _ => by
      rw [List.flatMap_cons, utf8EncodeChar_eq]
      exact List.nil_lt_cons _ _
  | c :: cs, d :: ds, h => by
      rw [List.flatMap_cons, List.flatMap_cons]
      rcases List.cons_lt_cons_iff.mp h with hlt | ⟨rfl, htail⟩
      · exact utf8EncodeChar_lt hlt _ _
      · exact List.append_left_lt (flatMap_utf8EncodeChar_lt htail)

theorem compare_eq_lt_of_lt : ∀ {xs ys : List UInt8}, xs < ys → compare xs ys = .lt
  | _, [], h => absurd h (List.not_lt_nil _)
  | [], _ :: _, _ => rfl
  | x :: xs, y :: ys, h => by
      rw [List.compare_cons_cons, Ordering.then_eq_lt]
      rcases List.cons_lt_cons_iff.mp h with hlt | ⟨rfl, htail⟩
      · exact Or.inl (Std.compare_eq_lt.mpr hlt)
      · exact Or.inr ⟨Std.ReflCmp.compare_self, compare_eq_lt_of_lt htail⟩

theorem compare_bytes_of_lt {s t : String} (h : s < t) : compare (bytes s) (bytes t) = .lt := by
  rw [bytes_eq, bytes_eq]
  exact compare_eq_lt_of_lt (flatMap_utf8EncodeChar_lt (String.lt_iff.mp h))

/-- **Texts compare as their bytes do.** -/
theorem compare_bytes (s t : String) : compare (bytes s) (bytes t) = compare s t := by
  cases h : compare s t with
  | lt => exact compare_bytes_of_lt (Std.LawfulLTCmp.eq_lt_iff_lt.mp h)
  | eq =>
    rw [Std.LawfulEqCmp.eq_of_compare h]
    exact Std.ReflCmp.compare_self
  | gt =>
    rw [Std.OrientedCmp.gt_iff_lt]
    exact compare_bytes_of_lt (Std.LawfulLTCmp.eq_gt_iff_gt.mp h)

end AggregateRules.Utf8
