import MetadataArchive.Proofs.Collection.NameMap
import MetadataArchive.Proofs.Failure
import MetadataArchive.Schema.TypeSystem

/-!
# Which type declares a property

A type system that was accepted holds every type under its own name. So the type that declares a
property is known by its name alone, and a type that declares a property itself is the nearest that
does.
-/

set_option autoImplicit false

namespace MetadataArchive

namespace TypeSystem

variable {ts : TypeSystem} {n property : String} {d t : TypeDef} {defs : List TypeDef}

/-- Every type is held under its own name. -/
def Named (ts : TypeSystem) : Prop := ∀ n d, ts.get? n = some d → d.name = n

/-- No type has a full stop in its name. -/
def Undotted (ts : TypeSystem) : Prop := ∀ n d, ts.get? n = some d → '.' ∉ d.name.toList

/-- No two types have one guid. -/
def Distinct (ts : TypeSystem) : Prop :=
  ∀ n n' d d', ts.get? n = some d → ts.get? n' = some d' → d.guid = d'.guid → d = d'

theorem undotted_of_values {ts : TypeSystem} (h : ∀ d ∈ ts.types.values, '.' ∉ d.name.toList) :
    ts.Undotted := fun n d hd => h d (NameMap.mem_values.2 ⟨n, hd⟩)

theorem get?_gather {m m' : NameMap TypeDef} (h : gather m defs = .ok m')
    (hd : m'.get? n = some d) : m.get? n = some d ∨ d ∈ defs ∧ d.name = n := by
  induction defs generalizing m with
  | nil =>
    cases h
    exact Or.inl hd
  | cons e rest ih =>
    simp only [gather] at h
    split at h
    · cases h
    · split at h
      · cases h
      · rcases ih h with hold | ⟨hmem, hname⟩
        · rw [NameMap.get?_insert] at hold
          split at hold
          next heq =>
            cases hold
            exact Or.inr ⟨List.mem_cons_self, heq.symm⟩
          next => exact Or.inl hold
        · exact Or.inr ⟨List.mem_cons_of_mem _ hmem, hname⟩

theorem get?_ofList (h : ofList defs = .ok ts) (hd : ts.get? n = some d) :
    d ∈ defs ∧ d.name = n := by
  simp only [ofList] at h
  split at h
  next ts' hbuild =>
    cases h
    simp only [bind_eq_ok, Except.ok.injEq] at hbuild
    obtain ⟨m, hm, -, -, rfl⟩ := hbuild
    rcases get?_gather hm hd with hold | hnew
    · cases hold
    · exact hnew
  next => cases h

theorem named_ofList (h : ofList defs = .ok ts) : ts.Named := fun _ _ hd => (get?_ofList h hd).2

theorem distinct_gather {m m' : NameMap TypeDef} (h : gather m defs = .ok m')
    (hm : Distinct ⟨m⟩) : Distinct ⟨m'⟩ := by
  induction defs generalizing m with
  | nil =>
    cases h
    exact hm
  | cons e rest ih =>
    simp only [gather] at h
    split at h
    · cases h
    next hnew =>
      split at h
      · cases h
      · refine ih h fun n n' d d' hd hd' hguid => ?_
        -- Whatever was there before has another guid.
        have hother {n : String} {d : TypeDef} (hd : m.get? n = some d) : d.guid ≠ e.guid := by
          simp only [List.any_eq_true, beq_iff_eq, not_exists, not_and] at hnew
          exact hnew d (NameMap.mem_values.2 ⟨n, hd⟩)
        simp only [get?, NameMap.get?_insert] at hd hd'
        split at hd <;> split at hd'
        · exact (Option.some.inj hd).symm.trans (Option.some.inj hd')
        · cases hd
          exact absurd hguid.symm (hother hd')
        · cases hd'
          exact absurd hguid (hother hd)
        · exact hm n n' d d' hd hd' hguid

theorem distinct_ofList (h : ofList defs = .ok ts) : ts.Distinct := by
  simp only [ofList] at h
  split at h
  next ts' hbuild =>
    cases h
    simp only [bind_eq_ok, Except.ok.injEq] at hbuild
    obtain ⟨m, hm, -, -, rfl⟩ := hbuild
    exact distinct_gather hm fun _ _ _ _ hd => by cases hd
  next => cases h

theorem get?_of_mem_chain (hts : ts.Named) {k : Nat} (ht : ts.get? t.name = some t)
    (hd : d ∈ ts.chain k t) : ts.get? d.name = some d := by
  induction k generalizing t with
  | zero => cases hd
  | succ k ih =>
    rw [chain, List.mem_cons] at hd
    rcases hd with rfl | hd
    · exact ht
    · split at hd
      next p hp =>
        obtain ⟨parent, -, hparent⟩ := Option.bind_eq_some_iff.1 hp
        exact ih (by rw [hts _ _ hparent, hparent]) hd
      next => cases hd

/-- A type that is found as the one that declares a property is known, and does. -/
theorem declaringType?_ok (hts : ts.Named) (h : ts.declaringType? n property = some d) :
    ts.get? d.name = some d ∧ d.declares property = true := by
  unfold declaringType? at h
  have hdeclares := List.find?_some h
  refine ⟨?_, hdeclares⟩
  have hmem := List.mem_of_find?_eq_some h
  unfold closureOf at hmem
  split at hmem
  next t ht => exact get?_of_mem_chain hts (by rw [hts _ _ ht, ht]) hmem
  next => cases hmem

/-- The nearest of a known type and its ancestors is the type itself. -/
theorem exists_closure_eq (ht : ts.get? n = some t) : ∃ rest, ts.closure t = t :: rest := by
  have hsize : ts.types.size ≠ 0 := by
    have hmem := NameMap.mem_entries.2 ht
    simpa [NameMap.size] using List.ne_nil_of_mem hmem
  obtain ⟨k, hk⟩ := Nat.exists_eq_succ_of_ne_zero hsize
  rw [closure, hk]
  exact ⟨_, rfl⟩

/-- What a type declares itself it has. -/
theorem declaringType?_self (ht : ts.get? n = some t) (hdeclares : t.declares property = true) :
    ts.declaringType? n property = some t := by
  obtain ⟨rest, hrest⟩ := exists_closure_eq ht
  unfold declaringType? closureOf
  simp [ht, hrest, hdeclares]

/-- **The guids of a type and its ancestors say what it is a subtype of**, since no two types have one
guid. -/
theorem any_guid_closure (hts : ts.Named) (hguids : ts.Distinct) (ht : ts.get? n = some t)
    {ancestor : String} (hd : ts.get? ancestor = some d) :
    ((ts.closure t).any fun e => e.guid == d.guid) = ts.isSubtypeOf n ancestor := by
  have hself : ts.get? t.name = some t := by rw [hts _ _ ht, ht]
  have hclosure : ts.closureOf n = ts.closure t := by simp [closureOf, ht]
  rw [isSubtypeOf, hclosure, Bool.eq_iff_iff, List.any_eq_true, List.any_eq_true]
  refine exists_congr fun e => and_congr_right fun he => ?_
  have hknown : ts.get? e.name = some e := get?_of_mem_chain hts hself he
  rw [beq_iff_eq, beq_iff_eq]
  constructor
  · intro hguid
    rw [hguids _ _ _ _ hknown hd hguid, hts _ _ hd]
  · rintro rfl
    rw [Option.some.inj (hknown.symm.trans hd)]

end TypeSystem

end MetadataArchive
