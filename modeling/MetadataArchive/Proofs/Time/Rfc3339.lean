import MetadataArchive.Proofs.Number.Digits
import MetadataArchive.Proofs.Time.Calendar
import MetadataArchive.Time.Rfc3339
import Mathlib.Data.List.TakeWhile

/-!
# Instants are read back from their texts

Whatever instant was read of a text is in the calendar (`inCalendar_of_read?`), and the text that is
written of an instant in the calendar is read as that instant again (`read?_text`): each part is
read up to the mark that follows it.
-/

set_option autoImplicit false

namespace MetadataArchive

/-- The day is in the calendar, the nanoseconds are those of one second, and those of a leap second
follow the fifty-ninth. -/
structure Instant.InCalendar (t : Instant) : Prop where
  year : Day.yearInRange t.day.year = true
  nano : t.nano < 2000000000
  leap : 1000000000 ≤ t.nano → t.second % 60 = 59

namespace Rfc3339

variable {ds rest cs : List Char} {low high most width n : Nat} {t : Instant}

/-! ## Numbers -/

theorem isBlank_eq_false_of_isDigit {c : Char} (h : c.isDigit = true) : isBlank c = false := by
  have hc := Char.isDigit_iff_toNat.1 h
  simp only [Char.reduceToNat] at hc
  simp only [isBlank, Bool.or_eq_false_iff, Bool.and_eq_false_iff, beq_eq_false_iff_ne,
    decide_eq_false_iff_not]
  omega

theorem skipBlanks_cons {c : Char} (h : isBlank c = false) : skipBlanks (c :: cs) = c :: cs :=
  List.dropWhile_cons_of_neg (by simp [h])

theorem skipBlanks_digits (hds : ∀ c ∈ ds, c.isDigit = true) (hne : ds ≠ []) :
    skipBlanks (ds ++ rest) = ds ++ rest := by
  obtain ⟨c, ds, rfl⟩ := List.exists_cons_of_ne_nil hne
  exact skipBlanks_cons (isBlank_eq_false_of_isDigit (hds c List.mem_cons_self))

/-- Digits are read as far as they may go, or up to the next mark. -/
theorem number_digits (hds : ∀ c ∈ ds, c.isDigit = true) (hne : ds ≠ []) (hmost : ds.length ≤ most)
    (hrest : ds.length = most ∨ Undigited rest) :
    number most (ds ++ rest) = some (Nat.ofDigitChars 10 ds 0, rest) := by
  have htake : ((ds ++ rest).take most).takeWhile Char.isDigit = ds := by
    rw [List.take_append, List.take_of_length_le hmost]
    refine takeWhile_digits hds ?_
    rcases hrest with heq | hrest
    · simp [heq, undigited_nil]
    · intro c hc
      rw [List.head?_take] at hc
      split at hc
      · cases hc
      · exact hrest c hc
  simp only [number, htake, List.isEmpty_iff, hne, if_false, List.drop_left, Option.some.injEq,
    Prod.mk.injEq, and_true]
  rfl

theorem number_lt {v : Nat} (h : number most cs = some (v, rest)) :
    v < 10 ^ (cs.length - rest.length) ∧ cs.length - rest.length ≤ most := by
  simp only [number, Option.ite_none_left_eq_some, Option.some.injEq, Prod.mk.injEq] at h
  obtain ⟨-, rfl, rfl⟩ := h
  have hle : ((cs.take most).takeWhile Char.isDigit).length ≤ (cs.take most).length :=
    (List.takeWhile_sublist _).length_le
  rw [List.length_take] at hle
  have hlength : cs.length - (cs.drop ((cs.take most).takeWhile Char.isDigit).length).length =
      ((cs.take most).takeWhile Char.isDigit).length := by
    rw [List.length_drop]
    omega
  rw [hlength]
  exact ⟨ofDigitChars_lt fun c hc => List.mem_takeWhile_imp hc, by omega⟩

theorem toList_padded (width n : Nat) : (padded width n).toList =
    List.replicate (width - (Nat.toDigits 10 n).length) '0' ++ Nat.toDigits 10 n := by
  simp [padded]

theorem isDigit_padded (width n : Nat) : ∀ c ∈ (padded width n).toList, c.isDigit = true := by
  rw [toList_padded, List.forall_mem_append]
  exact ⟨isDigit_zeros _, isDigit_toDigits n⟩

theorem padded_ne_nil (width n : Nat) : (padded width n).toList ≠ [] := by
  simp [toList_padded]

theorem ofDigitChars_padded (width n : Nat) :
    Nat.ofDigitChars 10 (padded width n).toList 0 = n := by
  simp [toList_padded, Nat.ofDigitChars_append]

theorem length_padded (hwidth : 0 < width) (hn : n < 10 ^ width) :
    (padded width n).toList.length = width := by
  have hle := (Nat.length_toDigits_le_iff (b := 10) (by decide) hwidth).2 hn
  rw [toList_padded, List.length_append, List.length_replicate]
  omega

theorem number_padded (hwidth : 0 < width) (hn : n < 10 ^ width) (hmost : width ≤ most)
    (hrest : width = most ∨ Undigited rest) :
    number most ((padded width n).toList ++ rest) = some (n, rest) := by
  rw [number_digits (isDigit_padded width n) (padded_ne_nil width n)
    (by rwa [length_padded hwidth hn]) (by rwa [length_padded hwidth hn]), ofDigitChars_padded]

theorem field_padded (hlow : low ≤ n) (hhigh : n ≤ high) (hn : n < 100) :
    field low high ((padded 2 n).toList ++ rest) = some (n, rest) := by
  rw [field, skipBlanks_digits (isDigit_padded 2 n) (padded_ne_nil 2 n),
    number_padded (by decide) hn (Nat.le_refl 2) (Or.inl rfl)]
  simp [hlow, hhigh]

theorem le_of_field (h : field low high cs = some (n, rest)) : low ≤ n ∧ n ≤ high := by
  simp only [field, Option.bind_eq_bind, Option.bind_eq_some_iff, Prod.exists,
    Option.ite_none_right_eq_some, Bool.and_eq_true, decide_eq_true_eq, Option.some.injEq,
    Prod.mk.injEq] at h
  obtain ⟨_, _, -, hle, rfl, -⟩ := h
  exact hle

/-! ## Parts -/

theorem year_yearText {y : Int} (hy : Day.yearInRange y = true) :
    year ((yearText y).toList ++ '-' :: rest) = some (y, '-' :: rest) := by
  have hdash : Undigited ('-' :: rest) := undigited_cons.2 rfl
  simp only [Day.yearInRange, Bool.and_eq_true, decide_eq_true_eq] at hy
  have hsigned {k : Nat} : let tail := (padded 4 k).toList ++ '-' :: rest
      number tail.length tail = some (k, '-' :: rest) := by
    intro tail
    rw [number_digits (isDigit_padded 4 k) (padded_ne_nil 4 k) (by simp [tail]) (Or.inr hdash),
      ofDigitChars_padded]
  unfold yearText
  split
  next hfour =>
    simp only [Bool.and_eq_true, decide_eq_true_eq] at hfour
    have hread : number 4 ((padded 4 y.toNat).toList ++ '-' :: rest) =
        some (y.toNat, '-' :: rest) :=
      number_padded (by decide) (by omega) (Nat.le_refl 4) (Or.inr hdash)
    have hdigits := isDigit_padded 4 y.toNat
    have hskip : skipBlanks ((padded 4 y.toNat).toList ++ '-' :: rest) =
        (padded 4 y.toNat).toList ++ '-' :: rest :=
      skipBlanks_digits hdigits (padded_ne_nil 4 y.toNat)
    obtain ⟨c, cs, hcs⟩ := List.exists_cons_of_ne_nil (padded_ne_nil 4 y.toNat)
    have hc := hdigits c (hcs ▸ List.mem_cons_self)
    unfold year
    rw [hskip]
    split
    next heq =>
      rw [hcs, List.cons_append, List.cons.injEq] at heq
      rw [heq.1] at hc
      cases hc
    next heq =>
      rw [hcs, List.cons_append, List.cons.injEq] at heq
      rw [heq.1] at hc
      cases hc
    next =>
      rw [hread, Option.map_some]
      exact congrArg (fun y => some (y, '-' :: rest)) (Int.toNat_of_nonneg hfour.1)
  next hsign =>
    split
    next hneg =>
      rw [String.toList_append, show "-".toList = ['-'] by decide, List.append_assoc,
        List.singleton_append, year, skipBlanks_cons (by decide)]
      show (number _ ((padded 4 y.natAbs).toList ++ '-' :: rest)).map _ = _
      rw [hsigned, Option.map_some]
      exact congrArg (fun y => some (y, '-' :: rest)) (by omega)
    next hpos =>
      rw [String.toList_append, show "+".toList = ['+'] by decide, List.append_assoc,
        List.singleton_append, year, skipBlanks_cons (by decide)]
      show (number _ ((padded 4 y.natAbs).toList ++ '-' :: rest)).map _ = _
      rw [hsigned, Option.map_some]
      exact congrArg (fun y => some (y, '-' :: rest)) (by omega)

theorem fraction_fractionText (hn : n < 1000000000) :
    fraction ((fractionText n).toList ++ ['Z']) = some (n, ['Z']) := by
  have hread {width k : Nat} (hwidth : 0 < width) (hk : k < 10 ^ width) (hmost : width ≤ 9) :
      fraction (("." ++ padded width k).toList ++ ['Z']) = some (k * 10 ^ (9 - width), ['Z']) := by
    have hend : Undigited ['Z'] := undigited_cons.2 rfl
    have hnumber := number_padded hwidth hk hmost (Or.inr hend)
    rw [String.toList_append, List.append_assoc, show ".".toList = ['.'] by decide]
    simp only [List.singleton_append, fraction, hnumber, Option.bind_eq_bind, Option.bind_some,
      List.length_append, Nat.add_sub_cancel, length_padded hwidth hk]
    rfl
  unfold fractionText
  split
  next hzero =>
    subst hzero
    rfl
  · split
    · rw [hread (by decide) (by omega) (by decide)]
      simp only [Option.some.injEq, Prod.mk.injEq, and_true]
      omega
    · split
      · rw [hread (by decide) (by omega) (by decide)]
        simp only [Option.some.injEq, Prod.mk.injEq, and_true]
        omega
      · rw [hread (by decide) (by omega) (by decide)]
        simp

theorem fraction_lt (h : fraction cs = some (n, rest)) : n < 1000000000 := by
  unfold fraction at h
  split at h
  next cs =>
    simp only [Option.bind_eq_bind, Option.bind_eq_some_iff, Prod.exists, Option.some.injEq,
      Prod.mk.injEq] at h
    obtain ⟨v, rest', hv, rfl, -⟩ := h
    obtain ⟨hlt, hle⟩ := number_lt hv
    calc v * 10 ^ (9 - (cs.length - rest'.length))
        < 10 ^ (cs.length - rest'.length) * 10 ^ (9 - (cs.length - rest'.length)) :=
          Nat.mul_lt_mul_of_pos_right hlt (Nat.pow_pos (by decide))
      _ = 10 ^ 9 := by rw [← Nat.pow_add]; congr 1; omega
  next =>
    cases h
    decide

/-- A zone is a whole number of minutes. -/
theorem offset_mod {zone : Int} (h : offset cs = some (zone, rest)) : zone % 60 = 0 := by
  have hbody {m : Nat} {cs rest : List Char} (h : offsetBody cs = some (m, rest)) : m % 60 = 0 := by
    unfold offsetBody at h
    split at h
    · split at h
      · split at h
        · simp only [Option.ite_none_right_eq_some, Option.some.injEq, Prod.mk.injEq] at h
          omega
        · cases h
      · cases h
    · cases h
  have hsigned (sign : Int) {cs : List Char} (h : ((offsetBody cs).bind fun x =>
      if x.1 < 86400 then some (sign * x.1, x.2) else none) = some (zone, rest)) :
      zone % 60 = 0 := by
    obtain ⟨⟨m, _⟩, hm, h⟩ := Option.bind_eq_some_iff.1 h
    simp only [Option.ite_none_right_eq_some, Option.some.injEq, Prod.mk.injEq] at h
    obtain ⟨-, rfl, -⟩ := h
    exact Int.emod_eq_zero_of_dvd (Dvd.dvd.mul_left
      (Int.natCast_dvd_natCast.2 (Nat.dvd_of_mod_eq_zero (hbody hm))) _)
  unfold offset at h
  split at h
  · cases h
    rfl
  · cases h
    rfl
  · split at h
    · cases h
      rfl
    · dsimp only at h
      split at h
      · exact hsigned 1 h
      · split at h
        · exact hsigned (-1) h
        · cases h
  · cases h

/-! ## Instants -/

theorem inCalendar_of_read? {s : String} (h : read? s = some t) : t.InCalendar := by
  unfold read? at h
  obtain ⟨_, -, h⟩ := Option.bind_eq_some_iff.1 h
  obtain ⟨_, -, h⟩ := Option.bind_eq_some_iff.1 h
  obtain ⟨_, -, h⟩ := Option.bind_eq_some_iff.1 h
  obtain ⟨_, -, h⟩ := Option.bind_eq_some_iff.1 h
  obtain ⟨_, -, h⟩ := Option.bind_eq_some_iff.1 h
  obtain ⟨_, -, h⟩ := Option.bind_eq_some_iff.1 h
  obtain ⟨_, -, h⟩ := Option.bind_eq_some_iff.1 h
  obtain ⟨_, -, h⟩ := Option.bind_eq_some_iff.1 h
  obtain ⟨_, -, h⟩ := Option.bind_eq_some_iff.1 h
  obtain ⟨_, -, h⟩ := Option.bind_eq_some_iff.1 h
  obtain ⟨⟨second, _⟩, hsecond, h⟩ := Option.bind_eq_some_iff.1 h
  obtain ⟨⟨nano, _⟩, hnano, h⟩ := Option.bind_eq_some_iff.1 h
  obtain ⟨⟨zone, _⟩, hzone, h⟩ := Option.bind_eq_some_iff.1 h
  simp only [Option.ite_none_right_eq_some, Option.some.injEq] at h
  obtain ⟨-, hrange, rfl⟩ := h
  have hnano := fraction_lt hnano
  have hzone := offset_mod hzone
  have hsecond := (le_of_field hsecond).2
  refine ⟨hrange, ?_, fun hleap => ?_⟩
  · dsimp only
    omega
  · have hsixty : second = 60 := by
      dsimp only at hleap
      omega
    subst hsixty
    dsimp only
    omega

/-- The text of an instant, part by part. -/
theorem toList_text (t : Instant) :
    let second := (t.second.fmod 86400).toNat
    (text t).toList = (yearText t.day.year).toList ++ '-' :: ((padded 2 t.day.month).toList ++
      '-' :: ((padded 2 t.day.day).toList ++ 'T' :: ((padded 2 (second / 3600)).toList ++
        ':' :: ((padded 2 (second / 60 % 60)).toList ++
          ':' :: ((padded 2 (second % 60 + t.nano / 1000000000)).toList ++
            ((fractionText (t.nano % 1000000000)).toList ++ ['Z'])))))) := by
  have hdash : "-".toList = ['-'] := by decide
  have hcolon : ":".toList = [':'] := by decide
  have htee : "T".toList = ['T'] := by decide
  have hzee : "Z".toList = ['Z'] := by decide
  simp only [text, textWithZone, String.toList_append, hdash, hcolon, htee, hzee, List.append_assoc,
    List.cons_append, List.nil_append]

/-- **An instant in the calendar is read back** from its text. -/
theorem read?_text (h : t.InCalendar) : read? (text t) = some t := by
  obtain ⟨hyear, hnano, hleap⟩ := h
  have hday : t.day.isValid = true := Day.isValid_ofEpochDay hyear
  have hnumber : t.day.toEpochDay = t.second.fdiv 86400 := Day.toEpochDay_ofEpochDay _
  have hdays : t.second = t.second.fdiv 86400 * 86400 + (t.second.fmod 86400).toNat ∧
      (t.second.fmod 86400).toNat < 86400 := by
    rw [Int.fdiv_eq_ediv_of_nonneg _ (by decide), Int.fmod_eq_emod_of_nonneg _ (by decide)]
    omega
  rw [read?, toList_text]
  generalize (t.second.fmod 86400).toNat = second at hdays
  have hparts := hday
  simp only [Day.isValid, Bool.and_eq_true, decide_eq_true_eq] at hparts
  obtain ⟨⟨⟨⟨-, hmonth⟩, hmonth'⟩, hd⟩, hd'⟩ := hparts
  have hlength : Day.daysInMonth t.day.year t.day.month ≤ 31 := by
    unfold Day.daysInMonth
    split
    · split <;> decide
    all_goals decide
  have hmark (c : Char) (hc : isBlank c = false) (rest : List Char) :
      literal c (c :: rest) = some ((), rest) := by
    rw [literal, skipBlanks_cons hc]
    simp
  have hnext {α β : Type} {part : Option α} {f : α → Option β} {a : α} {b : β}
      (hpart : part = some a) (hrest : f a = some b) : part.bind f = some b := by
    rw [hpart]
    exact hrest
  refine hnext (year_yearText hyear) (hnext (hmark '-' (by decide) _) ?_)
  refine hnext (field_padded hmonth hmonth' (by omega)) (hnext (hmark '-' (by decide) _) ?_)
  refine hnext (field_padded hd (Nat.le_trans hd' hlength) (by omega)) (hnext (a := ((), _)) rfl ?_)
  refine hnext (field_padded (by omega) (by omega) (by omega)) (hnext (hmark ':' (by decide) _) ?_)
  refine hnext (field_padded (by omega) (by omega) (by omega)) (hnext (hmark ':' (by decide) _) ?_)
  refine hnext (field_padded (by omega) (by omega) (by omega)) ?_
  refine hnext (fraction_fractionText (Nat.mod_lt t.nano (by decide))) (hnext (a := (0, [])) rfl ?_)
  have hsame : (⟨t.day.toEpochDay * 86400 + ((second / 3600 * 3600 + second / 60 % 60 * 60 +
        (second % 60 + t.nano / 1000000000 -
          (second % 60 + t.nano / 1000000000) / 60) : Nat) : Int) - 0,
      t.nano % 1000000000 +
        (second % 60 + t.nano / 1000000000) / 60 * 1000000000⟩ : Instant) = t := by
    have hsixtieth : (second % 60 + t.nano / 1000000000) / 60 = t.nano / 1000000000 := by omega
    rw [hsixtieth, hnumber]
    obtain ⟨s, nano⟩ := t
    simp only [Instant.mk.injEq] at hdays ⊢
    omega
  have hempty : (skipBlanks []).isEmpty = true := rfl
  simp only [hempty, hday, Bool.and_self, if_true, hsame, hyear]

end Rfc3339

end MetadataArchive
