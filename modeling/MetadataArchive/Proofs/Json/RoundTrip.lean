import MetadataArchive.Proofs.Json.Proper
import MetadataArchive.Proofs.Json.Scanning

/-!
# Values are read as they were written

A value that could be read of a text (`Proper`) is written as a text that is read again if its
arrays and objects do not nest deeper than the reader allows (`readWithin?_write`). The result is
the value itself, but for doubles, each of which comes out as the double that its own text is read
as (`reread`).
-/

set_option autoImplicit false

namespace MetadataArchive.Json

variable {j : Json} {items : List Json} {members : List (String × Json)} {rest : List Char}
variable {steps depth : Nat} {more : List Token}

mutual

/-- The value with each of its doubles as its text is read. -/
def reread : Json → Json
  | .num d => .num d.reread
  | .arr items => .arr (rereadItems items)
  | .obj members => .obj (rereadMembers members)
  | j => j

def rereadItems : List Json → List Json
  | [] => []
  | j :: rest => j.reread :: rereadItems rest

def rereadMembers : List (String × Json) → List (String × Json)
  | [] => []
  | (name, j) :: rest => (name, j.reread) :: rereadMembers rest

end

mutual

/-- The tokens that a value is written as. -/
def tokensOf : Json → List Token
  | .str s => [.str s]
  | .arr items => .openBracket :: (itemsTokens items ++ [.closeBracket])
  | .obj members => .openBrace :: (membersTokens members ++ [.closeBrace])
  | j => [.scalar j]

def itemsTokens : List Json → List Token
  | [] => []
  | [j] => tokensOf j
  | j :: rest => tokensOf j ++ .comma :: itemsTokens rest

def membersTokens : List (String × Json) → List Token
  | [] => []
  | [(name, j)] => .str name :: .colon :: tokensOf j
  | (name, j) :: rest => .str name :: .colon :: (tokensOf j ++ .comma :: membersTokens rest)

end

/-! ## Rereading -/

theorem rereadItems_eq_map : rereadItems items = items.map reread := by
  induction items with
  | nil => rfl
  | cons j items ih => rw [rereadItems, ih, List.map_cons]

theorem rereadMembers_eq_map :
    rereadMembers members = members.map fun m => (m.1, m.2.reread) := by
  induction members with
  | nil => rfl
  | cons m members ih => rw [rereadMembers, ih, List.map_cons]

theorem Proper.reread (h : j.Proper) : j.reread.Proper := by
  induction h with
  | null => exact .null
  | bool b => exact .bool b
  | int hlow hhigh => exact .int hlow hhigh
  | num h => exact .num (Double.reread_spec h).1
  | str s => exact .str s
  | arr _ ih =>
    rw [Json.reread, rereadItems_eq_map]
    exact .arr (List.forall_mem_map.2 ih)
  | obj _ ih =>
    rw [Json.reread, rereadMembers_eq_map]
    exact .obj (List.forall_mem_map.2 ih)

theorem itemsNesting_reread (h : ∀ j ∈ items, j.reread.nesting = j.nesting) :
    itemsNesting (rereadItems items) = itemsNesting items := by
  induction items with
  | nil => rfl
  | cons j items ih =>
    rw [List.forall_mem_cons] at h
    rw [rereadItems, itemsNesting, itemsNesting, h.1, ih h.2]

theorem membersNesting_reread (h : ∀ m ∈ members, m.2.reread.nesting = m.2.nesting) :
    membersNesting (rereadMembers members) = membersNesting members := by
  induction members with
  | nil => rfl
  | cons m members ih =>
    rw [List.forall_mem_cons] at h
    rw [rereadMembers, membersNesting, membersNesting, h.1, ih h.2]

theorem Proper.nesting_reread (h : j.Proper) : j.reread.nesting = j.nesting := by
  induction h with
  | null | bool | int | num | str => rfl
  | arr _ ih => rw [Json.reread, nesting, nesting, itemsNesting_reread ih]
  | obj _ ih => rw [Json.reread, nesting, nesting, membersNesting_reread ih]

/-! ## Scanning -/

/-- What is written of a value, up to what follows it, is scanned as the tokens of what is read. -/
def ScansBack (j : Json) : Prop :=
  ∀ rest, Ends rest → Scans (j.write.toList ++ rest) (tokensOf j.reread) rest

theorem scans_items (h : ∀ j ∈ items, j.ScansBack) (hrest : Ends rest) :
    Scans ((writeItems items).toList ++ rest) (itemsTokens (rereadItems items)) rest := by
  induction items with
  | nil => simp [Scans, writeItems, rereadItems, itemsTokens]
  | cons j items ih =>
    rw [List.forall_mem_cons] at h
    cases items with
    | nil => exact h.1 rest hrest
    | cons k items =>
      have hwrite : (writeItems (j :: k :: items)).toList ++ rest =
          j.write.toList ++ ',' :: ((writeItems (k :: items)).toList ++ rest) := by
        simp [writeItems]
      rw [hwrite]
      exact (h.1 _ (ends_cons.2 (by decide))).trans ((scans_token rfl rfl).trans (ih h.2))

theorem scans_members (h : ∀ m ∈ members, m.2.ScansBack) (hrest : Ends rest) :
    Scans ((writeMembers members).toList ++ rest) (membersTokens (rereadMembers members)) rest := by
  induction members with
  | nil => simp [Scans, writeMembers, rereadMembers, membersTokens]
  | cons m members ih =>
    rw [List.forall_mem_cons] at h
    obtain ⟨name, j⟩ := m
    cases members with
    | nil =>
      have hwrite : (writeMembers [(name, j)]).toList ++ rest =
          (quote name).toList ++ ':' :: (j.write.toList ++ rest) := by
        simp [writeMembers]
      rw [hwrite]
      exact (scans_quote name _).trans ((scans_token rfl rfl).trans (h.1 rest hrest))
    | cons m members =>
      have hwrite : (writeMembers ((name, j) :: m :: members)).toList ++ rest =
          (quote name).toList ++ ':' :: (j.write.toList ++
            ',' :: ((writeMembers (m :: members)).toList ++ rest)) := by
        simp [writeMembers]
      rw [hwrite]
      exact (scans_quote name _).trans ((scans_token rfl rfl).trans
        ((h.1 _ (ends_cons.2 (by decide))).trans ((scans_token rfl rfl).trans (ih h.2))))

theorem Proper.scansBack (h : j.Proper) : j.ScansBack := by
  induction h with
  | null => exact fun rest _ => scans_token rfl rfl
  | bool b =>
    intro rest _
    cases b
    · exact scans_token rfl rfl
    · exact scans_token rfl rfl
  | int hlow hhigh => exact fun rest => scans_int hlow hhigh
  | num h => exact (Double.reread_spec h).2
  | str s => exact fun rest _ => scans_quote s rest
  | @arr items _ ih =>
    intro rest _
    have hwrite : (write (.arr items)).toList ++ rest =
        '[' :: ((writeItems items).toList ++ ']' :: rest) := by
      simp [write]
    rw [hwrite]
    exact (scans_token rfl rfl).trans
      ((scans_items ih (ends_cons.2 (by decide))).trans (scans_token rfl rfl))
  | @obj members _ ih =>
    intro rest _
    have hwrite : (write (.obj members)).toList ++ rest =
        '\x7b' :: ((writeMembers members).toList ++ '\x7d' :: rest) := by
      simp [write]
    rw [hwrite]
    exact (scans_token rfl rfl).trans
      ((scans_members ih (ends_cons.2 (by decide))).trans (scans_token rfl rfl))

/-! ## Reading -/

/-- From its tokens a value is read if it does not nest too deep. -/
def ReadsBack (j : Json) : Prop :=
  ∀ steps depth more, 2 * (tokensOf j).length ≤ steps →
    value? steps depth (tokensOf j ++ more) = if j.nesting ≤ depth then some (j, more) else none

/-- A value is not taken for the end of an array. -/
theorem tokensOf_eq_cons (j : Json) : ∃ t ts, tokensOf j = t :: ts ∧ t ≠ .closeBracket := by
  cases j <;> exact ⟨_, _, rfl, by simp⟩

theorem itemsTokens_cons (hne : items ≠ []) :
    itemsTokens (j :: items) = tokensOf j ++ .comma :: itemsTokens items := by
  rw [itemsTokens]
  exact hne

theorem membersTokens_cons {name : String} (hne : members ≠ []) :
    membersTokens ((name, j) :: members) =
      .str name :: .colon :: (tokensOf j ++ .comma :: membersTokens members) := by
  rw [membersTokens]
  exact hne

theorem items?_tokens (h : ∀ j ∈ items, j.ReadsBack) (hne : items ≠ [])
    (hsteps : 2 * (itemsTokens items).length < steps) :
    items? steps depth (itemsTokens items ++ .closeBracket :: more) =
      if itemsNesting items ≤ depth then some (items, more) else none := by
  induction items generalizing steps with
  | nil => exact absurd rfl hne
  | cons j items ih =>
    rw [List.forall_mem_cons] at h
    obtain ⟨steps, rfl⟩ : ∃ k, steps = k + 1 := ⟨steps - 1, by omega⟩
    rw [itemsNesting]
    cases hitems : items with
    | nil =>
      subst hitems
      rw [itemsTokens] at hsteps ⊢
      rw [items?, h.1 steps depth _ (by omega), itemsNesting, Nat.max_zero]
      by_cases hj : j.nesting ≤ depth
      · simp only [if_pos hj]
      · simp only [if_neg hj]
    | cons =>
      have hmore : items ≠ [] := by simp [hitems]
      rw [← hitems]
      rw [itemsTokens_cons hmore, List.length_append, List.length_cons] at hsteps
      rw [itemsTokens_cons hmore, List.append_assoc, List.cons_append, items?,
        h.1 steps depth _ (by omega)]
      have hrest : items? steps depth (itemsTokens items ++ .closeBracket :: more) =
          if itemsNesting items ≤ depth then some (items, more) else none :=
        ih h.2 hmore (by omega)
      by_cases hj : j.nesting ≤ depth
      · simp only [if_pos hj]
        simp only [hrest, max_le_iff, hj, true_and]
        split <;> rfl
      · simp only [max_le_iff, hj, false_and, if_false]

theorem members?_tokens (h : ∀ m ∈ members, m.2.ReadsBack) (hne : members ≠ [])
    (hsteps : 2 * (membersTokens members).length < steps) :
    members? steps depth (membersTokens members ++ .closeBrace :: more) =
      if membersNesting members ≤ depth then some (members, more) else none := by
  induction members generalizing steps with
  | nil => exact absurd rfl hne
  | cons m members ih =>
    rw [List.forall_mem_cons] at h
    obtain ⟨name, j⟩ := m
    have hread : j.ReadsBack := h.1
    obtain ⟨steps, rfl⟩ : ∃ k, steps = k + 1 := ⟨steps - 1, by omega⟩
    rw [membersNesting]
    cases hmembers : members with
    | nil =>
      subst hmembers
      rw [membersTokens, List.length_cons, List.length_cons] at hsteps
      rw [membersTokens, List.cons_append, List.cons_append, members?]
      dsimp only
      rw [hread steps depth _ (by omega), membersNesting, Nat.max_zero]
      by_cases hj : j.nesting ≤ depth
      · simp only [if_pos hj]
      · simp only [if_neg hj]
    | cons =>
      have hmore : members ≠ [] := by simp [hmembers]
      rw [← hmembers]
      rw [membersTokens_cons hmore, List.length_cons, List.length_cons, List.length_append,
        List.length_cons] at hsteps
      rw [membersTokens_cons hmore, List.cons_append, List.cons_append, List.append_assoc,
        List.cons_append, members?]
      have hrest : members? steps depth (membersTokens members ++ .closeBrace :: more) =
          if membersNesting members ≤ depth then some (members, more) else none :=
        ih h.2 hmore (by omega)
      dsimp only
      rw [hread steps depth _ (by omega)]
      by_cases hj : j.nesting ≤ depth
      · simp only [if_pos hj]
        simp only [hrest, max_le_iff, hj, true_and]
        split <;> rfl
      · simp only [max_le_iff, hj, false_and, if_false]

theorem value?_items (hne : items ≠ []) :
    value? (steps + 1) (depth + 1) (.openBracket :: (itemsTokens items ++ more)) =
      (items? steps depth (itemsTokens items ++ more)).map fun p => (.arr p.1, p.2) := by
  obtain ⟨t, ts, htokens, ht⟩ : ∃ t ts, itemsTokens items = t :: ts ∧ t ≠ .closeBracket := by
    obtain ⟨j, tail, rfl⟩ := List.exists_cons_of_ne_nil hne
    obtain ⟨t, ts, hts, ht⟩ := tokensOf_eq_cons j
    cases tail with
    | nil => exact ⟨t, ts, hts, ht⟩
    | cons => exact ⟨t, _, by rw [itemsTokens_cons (by simp), hts]; rfl, ht⟩
  rw [htokens]
  cases t with
  | closeBracket => exact absurd rfl ht
  | _ => rfl

theorem value?_members (hne : members ≠ []) :
    value? (steps + 1) (depth + 1) (.openBrace :: (membersTokens members ++ more)) =
      (members? steps depth (membersTokens members ++ more)).map fun p => (.obj p.1, p.2) := by
  obtain ⟨⟨name, j⟩, tail, rfl⟩ := List.exists_cons_of_ne_nil hne
  cases tail with
  | nil => rfl
  | cons =>
    rw [membersTokens_cons (by simp)]
    rfl

theorem Proper.readsBack (h : j.Proper) : j.ReadsBack := by
  induction h with
  | null | bool | int | num | str =>
    intro steps depth more hsteps
    obtain ⟨steps, rfl⟩ : ∃ k, steps = k + 1 := ⟨steps - 1, by simp [tokensOf] at hsteps; omega⟩
    rw [nesting, if_pos (Nat.zero_le depth)]
    · rfl
    all_goals nofun
  | @arr items _ ih =>
    intro steps depth more hsteps
    rw [tokensOf, List.length_cons, List.length_append, List.length_singleton] at hsteps
    obtain ⟨steps, rfl⟩ : ∃ k, steps = k + 1 := ⟨steps - 1, by omega⟩
    rw [tokensOf, List.cons_append, List.append_assoc, List.singleton_append, nesting]
    cases depth with
    | zero =>
      rw [if_neg (by omega)]
      rfl
    | succ depth =>
      simp only [Nat.add_le_add_iff_right]
      by_cases hitems : items = []
      · subst hitems
        rfl
      · rw [value?_items hitems, items?_tokens ih hitems (by omega)]
        split <;> rfl
  | @obj members _ ih =>
    intro steps depth more hsteps
    rw [tokensOf, List.length_cons, List.length_append, List.length_singleton] at hsteps
    obtain ⟨steps, rfl⟩ : ∃ k, steps = k + 1 := ⟨steps - 1, by omega⟩
    rw [tokensOf, List.cons_append, List.append_assoc, List.singleton_append, nesting]
    cases depth with
    | zero =>
      rw [if_neg (by omega)]
      rfl
    | succ depth =>
      simp only [Nat.add_le_add_iff_right]
      by_cases hmembers : members = []
      · subst hmembers
        rfl
      · rw [value?_members hmembers, members?_tokens ih hmembers (by omega)]
        split <;> rfl

/-- **What is written of a value is read** as the value with its doubles reread, unless it nests too
deep. -/
theorem readWithin?_write (h : j.Proper) :
    readWithin? depth j.write = if j.nesting ≤ depth then some j.reread else none := by
  have htokens : tokens? j.write.toList = some (tokensOf j.reread) := by
    have hscans := h.scansBack [] ends_nil
    rw [Scans, List.append_nil, show tokens? [] = some [] by rw [tokens?]] at hscans
    simpa using hscans
  have hvalue := h.reread.readsBack (2 * (tokensOf j.reread).length + 2) depth [] (by omega)
  rw [List.append_nil, h.nesting_reread] at hvalue
  simp only [readWithin?, htokens, Option.bind_eq_bind, Option.bind_some, hvalue]
  by_cases hdepth : j.nesting ≤ depth
  · simp only [if_pos hdepth]
  · simp only [if_neg hdepth]

end MetadataArchive.Json
