import Mathlib.Algebra.Order.Group.Nat
import Mathlib.Data.List.Infix

/-!
# The order of texts is that of their bytes

A text is kept as the bytes of UTF-8, and what keeps texts in order and searches them compares bytes.
It may as well be thought of as comparing characters: of two texts the one whose characters come
first has the bytes that come first (`utf8_lt_iff`), and a text begins with another byte by byte
where it does character by character (`utf8_prefix_iff`).

A character is written in a first byte, which carries a mark for how many more there are, and in
bytes of six bits each that follow it. The mark grows with the number of bytes, and so does the
character: first bytes put characters of different lengths in the right order. In characters of one
length each byte is a digit to base 64, the highest first.
-/

set_option autoImplicit false

namespace MetadataArchive

/-! ## One character -/

namespace CodePoint

/-- A number behind a mark: its `n` low digits to base 64 each in a byte of its own, and what is
above them in the first byte. -/
def marked (mark v : Nat) : Nat → List UInt8
  | 0 => [UInt8.ofNat (v + mark)]
  | n + 1 => marked mark (v / 64) n ++ [UInt8.ofNat (v % 64 + 0x80)]

/-- How many bytes follow the first one. -/
def trailing (v : Nat) : Nat :=
  if v ≤ 0x7f then 0 else if v ≤ 0x7ff then 1 else if v ≤ 0xffff then 2 else 3

/-- The mark of a first byte that `n` others follow. -/
def mark : Nat → Nat
  | 0 => 0
  | 1 => 0xc0
  | 2 => 0xe0
  | _ => 0xf0

/-- What the first byte holds. -/
def lead (v : Nat) : Nat := v / 64 ^ trailing v + mark (trailing v)

variable {m m' v w n n' : Nat}

theorem ofNat_lt_ofNat (h : v < w) (hw : w < 256) : UInt8.ofNat v < UInt8.ofNat w := by
  rw [UInt8.lt_iff_toNat_lt, UInt8.toNat_ofNat', UInt8.toNat_ofNat']
  omega

theorem exists_marked (m v n : Nat) :
    ∃ rest, marked m v n = UInt8.ofNat (v / 64 ^ n + m) :: rest := by
  induction n generalizing v with
  | zero => exact ⟨[], by rw [marked, Nat.pow_zero, Nat.div_one]⟩
  | succ n ih =>
    obtain ⟨rest, hrest⟩ := ih (v / 64)
    refine ⟨rest ++ [UInt8.ofNat (v % 64 + 0x80)], ?_⟩
    rw [marked, hrest, List.cons_append, Nat.div_div_eq_div_mul, ← Nat.pow_succ']

/-- Of two numbers behind one mark and in as many bytes the smaller one comes first, whatever
follows them: their bytes differ before either ends. -/
theorem marked_append_lt (h : v < w) (hw : w / 64 ^ n + m < 256) (xs ys : List UInt8) :
    marked m v n ++ xs < marked m w n ++ ys := by
  induction n generalizing v w xs ys with
  | zero =>
    rw [Nat.pow_zero, Nat.div_one] at hw
    exact List.cons_lt_cons_iff.2 (Or.inl (ofNat_lt_ofNat (by omega) hw))
  | succ n ih =>
    rw [marked, marked, List.append_assoc, List.append_assoc]
    rcases Nat.lt_or_eq_of_le (Nat.div_le_div_right (c := 64) h.le) with hdiv | hdiv
    · rw [Nat.pow_succ', ← Nat.div_div_eq_div_mul] at hw
      exact ih hdiv hw _ _
    · -- The numbers differ in their last digit alone.
      have hdigit : v % 64 + 0x80 < w % 64 + 0x80 := by omega
      rw [hdiv]
      exact List.append_left_lt
        (List.cons_lt_cons_iff.2 (Or.inl (ofNat_lt_ofNat hdigit (by omega))))

theorem marked_append_lt_of_first (h : v / 64 ^ n + m < w / 64 ^ n' + m')
    (hw : w / 64 ^ n' + m' < 256) (xs ys : List UInt8) :
    marked m v n ++ xs < marked m' w n' ++ ys := by
  obtain ⟨rest, hrest⟩ := exists_marked m v n
  obtain ⟨rest', hrest'⟩ := exists_marked m' w n'
  rw [hrest, hrest']
  exact List.cons_lt_cons_iff.2 (Or.inl (ofNat_lt_ofNat h hw))

theorem lead_lt (h : v < 0x110000) : lead v < 256 := by
  unfold lead trailing
  split_ifs <;> simp only [mark] <;> omega

/-- Where numbers take differently many bytes, the smaller one has the smaller first byte. -/
theorem lead_lt_lead (h : v < w) (hne : trailing v ≠ trailing w) : lead v < lead w := by
  revert hne
  unfold lead trailing
  split_ifs <;> simp only [mark] <;> omega

theorem toNat_lt (c : Char) : c.toNat < 0x110000 := by
  rcases c.valid with h | h <;> simp only [Char.toNat] <;> omega

/-- A character is written as its number is, behind the mark for its length. -/
theorem utf8EncodeChar_eq (c : Char) :
    String.utf8EncodeChar c = marked (mark (trailing c.toNat)) c.toNat (trailing c.toNat) := by
  have hc : c.toNat < 0x110000 := toNat_lt c
  -- In each length the first byte has room for all that is above the low digits.
  fun_cases String.utf8EncodeChar c with
  | case1 v h =>
    have ht : trailing v = 0 := if_pos h
    change _ = marked (mark (trailing v)) v (trailing v)
    rw [ht]
    rfl
  | case2 v h h' =>
    have ht : trailing v = 1 := by rw [trailing, if_neg h, if_pos h']
    have hfirst : v / 64 % 0x20 = v / 64 := Nat.mod_eq_of_lt (by omega)
    change _ = marked (mark (trailing v)) v (trailing v)
    rw [ht, hfirst]
    rfl
  | case3 v h h' h'' =>
    have ht : trailing v = 2 := by rw [trailing, if_neg h, if_neg h', if_pos h'']
    have hfirst : v / 4096 % 0x10 = v / 64 / 64 := by omega
    change _ = marked (mark (trailing v)) v (trailing v)
    rw [ht, hfirst]
    rfl
  | case4 v h h' h'' =>
    have ht : trailing v = 3 := by rw [trailing, if_neg h, if_neg h', if_neg h'']
    have hfirst : v / 262144 % 0x08 = v / 64 / 64 / 64 := by
      change v < 0x110000 at hc
      omega
    have hsecond : v / 4096 = v / 64 / 64 := by omega
    change _ = marked (mark (trailing v)) v (trailing v)
    rw [ht, hfirst, hsecond]
    rfl

theorem utf8EncodeChar_append_lt {c d : Char} (h : c < d) (xs ys : List UInt8) :
    String.utf8EncodeChar c ++ xs < String.utf8EncodeChar d ++ ys := by
  have hlt : c.toNat < d.toNat := h
  have hd : lead d.toNat < 256 := lead_lt (toNat_lt d)
  rw [utf8EncodeChar_eq, utf8EncodeChar_eq]
  by_cases ht : trailing c.toNat = trailing d.toNat
  · rw [ht]
    exact marked_append_lt hlt hd xs ys
  · exact marked_append_lt_of_first (lead_lt_lead hlt ht) hd xs ys

end CodePoint

/-! ## Texts -/

/-- The bytes that a text is kept in. -/
def utf8 (s : String) : List UInt8 := s.toUTF8.data.toList

variable {s t : String}

theorem utf8_eq (s : String) : utf8 s = s.toList.flatMap String.utf8EncodeChar := by
  rw [utf8, String.toUTF8_eq_toByteArray, ← String.utf8Encode_toList, List.utf8Encode,
    List.toList_data_toByteArray]

theorem flatMap_utf8EncodeChar_lt {cs ds : List Char} (h : cs < ds) :
    cs.flatMap String.utf8EncodeChar < ds.flatMap String.utf8EncodeChar := by
  induction h with
  | @nil d ds =>
    obtain ⟨b, bs, hb⟩ := List.exists_cons_of_ne_nil (String.utf8EncodeChar_ne_nil (c := d))
    rw [List.flatMap_nil, List.flatMap_cons, hb]
    exact List.nil_lt_cons b _
  | rel h => exact CodePoint.utf8EncodeChar_append_lt h _ _
  | cons _ ih => exact List.append_left_lt ih

/-- **Texts are ordered as their bytes are.** -/
theorem utf8_lt_iff : utf8 s < utf8 t ↔ s < t := by
  have hmono {s t : String} (h : s < t) : utf8 s < utf8 t := by
    rw [utf8_eq, utf8_eq]
    exact flatMap_utf8EncodeChar_lt h
  refine ⟨fun h => Decidable.byContradiction fun hst => ?_, hmono⟩
  by_cases hts : t < s
  · exact List.lt_asymm h (hmono hts)
  · have heq : s = t := String.le_antisymm (String.not_lt.1 hts) (String.not_lt.1 hst)
    exact List.lt_irrefl _ (heq ▸ h)

/-- In units of sixteen bits the first text would come behind the second, which is written in two of
them. -/
example : utf8 "～" < utf8 "😀" := utf8_lt_iff.2 (by decide)

/-- **A text begins with another where its bytes begin with the other's.** -/
theorem utf8_prefix_iff : utf8 s <+: utf8 t ↔ s.toList <+: t.toList := by
  constructor
  · rintro ⟨rest, hrest⟩
    refine List.isPrefix_of_utf8Encode_append_eq_utf8Encode rest.toByteArray ?_
    rw [utf8_eq, utf8_eq] at hrest
    rw [List.utf8Encode, List.utf8Encode, ← hrest, List.toByteArray_append]
  · intro h
    rw [utf8_eq, utf8_eq]
    exact h.flatMap _

end MetadataArchive
