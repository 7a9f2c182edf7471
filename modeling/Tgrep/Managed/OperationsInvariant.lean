import Tgrep.Managed.Operations

/-!
# The invariant of the receipts

No two receipts of a scope have one number or one token, the scope of a receipt exists and its
floor is below the number of the receipt, and the scope of a condemned receipt is closed. Most
calls rewrite rows in place, which keeps all this.

## Main definitions

* `Operations.Inv`: the invariant of the tables.
* `Operations.Advances`: what every call guarantees about receipts and scopes.
* `Operations.Rewrites`: a call that rewrites rows in place.

## Main results

* `Operations.Rewrites.inv`, `Operations.Rewrites.advances`: such calls keep the invariant and
  advance.
* `Operations.rewrites_updateOperation`, `Operations.rewrites_commitOwnerRelease`,
  `Operations.rewrites_prepareOwner`, `Operations.rewrites_openNamespace`,
  `Operations.rewrites_activate`: the calls that do.
-/

namespace Tgrep.Managed

open Option FinMap Finset

namespace Operations

variable {ρ δ : Type} {c : RequestCodec ρ δ} {s s' s'' : Operations ρ δ}

/-! ## The invariant -/

/-- A row keeps what identifies its request. -/
def SameRequest (op op' : Receipt ρ δ) : Prop :=
  op'.token = op.token ∧ op'.kind = op.kind ∧ op'.request = op.request ∧ op'.digest = op.digest

/-- A receipt is what an acceptance wrote. -/
structure Accepted (c : RequestCodec ρ δ) (op : Receipt ρ δ) : Prop where
  token : op.token.validate = .ok ()
  digest : op.digest = c.digest op.kind op.request
  encodable : Encodable c op.kind op.request

/-- The invariant of the tables. -/
structure Inv (c : RequestCodec ρ δ) (s : Operations ρ δ) : Prop where
  header_ne : s.header ≠ s.process
  header_issued : s.header ∈ s.issued
  process_issued : s.process ∈ s.issued
  scopes_issued : ∀ id row, s.scopes.get? id = some row → id ∈ s.issued
  operations_issued : ∀ id op, s.operations.get? id = some op → id ∈ s.issued
  condemned_issued : s.condemned ⊆ s.issued
  accepted : ∀ id op, s.operations.get? id = some op → Accepted c op
  unique : ∀ id op id' op', s.operations.get? id = some op → s.operations.get? id' = some op' →
    matching op.token (id', op') = true → id = id'
  /-- The scope of a receipt exists, with a floor below it. -/
  inScope : ∀ id op, s.operations.get? id = some op →
    ∃ row, s.scopes.get? op.token.scope = some row ∧ row.floor < op.token.sequence
  condemned_closed : ∀ id ∈ s.condemned, ∀ op, s.operations.get? id = some op →
    ∀ row, s.scopes.get? op.token.scope = some row → row.closed = true

/-- What every call guarantees: a receipt stays or its number is spent otherwise, floors do not
fall, a closed scope stays closed, and a scope that is gone stays gone. -/
structure Advances (s s' : Operations ρ δ) : Prop where
  header : s'.header = s.header
  process : s'.process = s.process ∨ s'.process ∉ s.issued
  issued : s.issued ⊆ s'.issued
  receipts : ∀ id op, s.operations.get? id = some op →
    (∃ op', s'.operations.get? id = some op' ∧ SameRequest op op') ∨
      ∃ row, s'.scopes.get? op.token.scope = some row ∧
        (op.token.sequence ≤ row.floor ∨ row.closed = true)
  scopes : ∀ id row, s.scopes.get? id = some row →
    (∃ row', s'.scopes.get? id = some row' ∧ row.floor ≤ row'.floor ∧
        (row.closed = true → row'.closed = true)) ∨
      (s'.scopes.get? id = none ∧ id ≠ s'.header ∧ id ≠ s'.process)
  absent : ∀ id, s.scopes.get? id = none →
    s'.scopes.get? id = none ∨ id = s'.header ∨ id = s'.process ∨ id ∉ s.issued

/-- Nothing happens. -/
lemma Advances.refl (s : Operations ρ δ) : Advances s s where
  header := rfl
  process := .inl rfl
  issued := subset_rfl
  receipts _ op h := .inl ⟨op, h, rfl, rfl, rfl, rfl⟩
  scopes _ row h := .inl ⟨row, h, le_rfl, fun h => h⟩
  absent _ h := .inl h

/-- Two rows with one token are one row. -/
lemma matching_of_token {op : Receipt ρ δ} {token : OperationToken} {id : Id}
    (h : op.token = token) : matching token (id, op) = true := by
  subst h
  simp [matching]

/-- A namespace that has just been created satisfies the invariant. -/
lemma create_inv {header process : Id} (h : header ≠ process) :
    (create header process : Operations ρ δ).Inv c where
  header_ne := h
  header_issued := by simp [create]
  process_issued := by simp [create]
  scopes_issued := by simp [create]
  operations_issued := by simp [create]
  condemned_issued := by simp [create]
  accepted := by simp [create]
  unique := by simp [create]
  inScope := by simp [create]
  condemned_closed := by simp [create]

/-! ## Calls that rewrite rows in place -/

/-- The rows of `s'` are those of `s`, changed in place; scopes may be added for the namespace, the
process and fresh identities. -/
structure Rewrites (s s' : Operations ρ δ) : Prop where
  header : s'.header = s.header
  header_ne : s'.header ≠ s'.process
  process : s'.process = s.process ∨ s'.process ∉ s.issued
  issued : s.issued ⊆ s'.issued
  process_issued : s'.process ∈ s'.issued
  condemned : s'.condemned ⊆ s.condemned
  operations : ∀ id, s.operations.get? id = none → s'.operations.get? id = none
  receipts : ∀ id op, s.operations.get? id = some op →
    ∃ op', s'.operations.get? id = some op' ∧ SameRequest op op'
  scopes : ∀ id row, s.scopes.get? id = some row →
    ∃ row', s'.scopes.get? id = some row' ∧ row'.floor = row.floor ∧
      (row.closed = true → row'.closed = true)
  absent : ∀ id, s.scopes.get? id = none → s'.scopes.get? id = none ∨
    (id = s'.header ∨ id = s'.process ∨ id ∉ s.issued) ∧ id ∈ s'.issued

/-- A row of `s'` comes from one of `s`. -/
lemma Rewrites.origin (h : Rewrites s s') {id : Id} {op' : Receipt ρ δ}
    (hop' : s'.operations.get? id = some op') :
    ∃ op, s.operations.get? id = some op ∧ SameRequest op op' := by
  cases hop : s.operations.get? id with
  | none =>
    rw [h.operations id hop] at hop'
    cases hop'
  | some op =>
    obtain ⟨op'', hop'', hsame⟩ := h.receipts id op hop
    rw [hop'] at hop''
    obtain rfl := some.inj hop''
    exact ⟨op, rfl, hsame⟩

/-- Calls that rewrite rows in place keep the invariant. -/
lemma Rewrites.inv (h : Rewrites s s') (hi : s.Inv c) : s'.Inv c where
  header_ne := h.header_ne
  header_issued := h.header ▸ h.issued hi.header_issued
  process_issued := h.process_issued
  scopes_issued := by
    intro id row' hrow'
    cases hrow : s.scopes.get? id with
    | none =>
      obtain hnone | ⟨-, hissued⟩ := h.absent id hrow
      · rw [hnone] at hrow'
        cases hrow'
      · exact hissued
    | some row => exact h.issued (hi.scopes_issued id row hrow)
  operations_issued := by
    intro id op' hop'
    obtain ⟨op, hop, -⟩ := h.origin hop'
    exact h.issued (hi.operations_issued id op hop)
  condemned_issued := h.condemned.trans (hi.condemned_issued.trans h.issued)
  accepted := by
    intro id op' hop'
    obtain ⟨op, hop, htoken, hkind, hrequest, hdigest⟩ := h.origin hop'
    obtain ⟨ht, hd, he⟩ := hi.accepted id op hop
    refine ⟨?_, ?_, ?_⟩
    · rwa [htoken]
    · rwa [hdigest, hkind, hrequest]
    · rwa [hkind, hrequest]
  unique := by
    intro id op' id' op'' hop' hop'' hmatch
    obtain ⟨op, hop, htoken, -⟩ := h.origin hop'
    obtain ⟨op₂, hop₂, htoken₂, -⟩ := h.origin hop''
    refine hi.unique id op id' op₂ hop hop₂ ?_
    simp only [matching] at hmatch ⊢
    rwa [htoken, htoken₂] at hmatch
  inScope := by
    intro id op' hop'
    obtain ⟨op, hop, htoken, -⟩ := h.origin hop'
    obtain ⟨row, hrow, hfloor⟩ := hi.inScope id op hop
    obtain ⟨row', hrow', hsame, -⟩ := h.scopes _ row hrow
    refine ⟨row', ?_, ?_⟩
    · rwa [htoken]
    · rwa [htoken, hsame]
  condemned_closed := by
    intro id hid op' hop' row' hrow'
    obtain ⟨op, hop, htoken, -⟩ := h.origin hop'
    obtain ⟨row, hrow, -⟩ := hi.inScope id op hop
    obtain ⟨row₂, hrow₂, -, hclosed⟩ := h.scopes _ row hrow
    rw [htoken, hrow₂] at hrow'
    obtain rfl := some.inj hrow'
    exact hclosed (hi.condemned_closed id (h.condemned hid) op hop row hrow)

/-- Calls that rewrite rows in place advance. -/
lemma Rewrites.advances (h : Rewrites s s') : Advances s s' where
  header := h.header
  process := h.process
  issued := h.issued
  receipts id op hop := .inl (h.receipts id op hop)
  scopes id row hrow := by
    obtain ⟨row', hrow', hfloor, hclosed⟩ := h.scopes id row hrow
    exact .inl ⟨row', hrow', hfloor.ge, hclosed⟩
  absent id hnone := by
    obtain hnone' | ⟨hwhy, -⟩ := h.absent id hnone
    · exact .inl hnone'
    · exact .inr hwhy

/-- Calls that leave receipts and scopes alone. -/
lemma Rewrites.of_eq (hi : s.Inv c) (hheader : s'.header = s.header)
    (hprocess : s'.process = s.process) (hissued : s'.issued = s.issued)
    (hcondemned : s'.condemned = s.condemned) (hscopes : s'.scopes = s.scopes)
    (hoperations : s'.operations = s.operations) : Rewrites s s' where
  header := hheader
  header_ne := by rw [hheader, hprocess]; exact hi.header_ne
  process := .inl hprocess
  issued := hissued.ge
  process_issued := by rw [hprocess, hissued]; exact hi.process_issued
  condemned := hcondemned.le
  operations := by rw [hoperations]; exact fun _ h => h
  receipts := by rw [hoperations]; exact fun _ op h => ⟨op, h, rfl, rfl, rfl, rfl⟩
  scopes := by rw [hscopes]; exact fun _ row h => ⟨row, h, rfl, fun h => h⟩
  absent := by rw [hscopes]; exact fun _ h => .inl h

/-- Writing the record of an operation that keeps its request. -/
lemma rewrites_updateOperation (hi : s.Inv c) {id : Id} {f : Receipt ρ δ → Receipt ρ δ}
    (hf : ∀ op, SameRequest op (f op)) : Rewrites s (s.orKeep (s.updateOperation id f)) := by
  unfold updateOperation
  cases hop : s.operations.get? id with
  | none => exact Rewrites.of_eq hi rfl rfl rfl rfl rfl rfl
  | some op =>
    have hget : ∀ id', (s.saveOperation id (f op)).operations.get? id' =
        if id' = id then some (f op) else s.operations.get? id' := by
      intro id'
      rw [saveOperation, get?_alter, hop]
      rfl
    refine ⟨rfl, hi.header_ne, .inl rfl, subset_rfl, hi.process_issued, subset_rfl,
      fun id' hnone => ?_, fun id' op' hop' => ?_, fun _ row h => ⟨row, h, rfl, fun h => h⟩,
      fun _ h => .inl h⟩
    · show (s.saveOperation id (f op)).operations.get? id' = none
      rw [hget, if_neg, hnone]
      rintro rfl
      rw [hop] at hnone
      cases hnone
    · show ∃ op'', (s.saveOperation id (f op)).operations.get? id' = some op'' ∧ _
      rw [hget]
      split_ifs with heq
      · subst heq
        rw [hop] at hop'
        obtain rfl := some.inj hop'
        exact ⟨_, rfl, hf _⟩
      · exact ⟨op', hop', rfl, rfl, rfl, rfl⟩

/-! ## Owners and processes -/

/-- Releasing an owner rewrites rows in place. -/
lemma rewrites_commitOwnerRelease (hi : s.Inv c) (id : Id) (record : OwnerRow) :
    Rewrites s (s.commitOwnerRelease c id record) := by
  have hscopes : ∀ id', (s.commitOwnerRelease c id record).scopes.get? id' =
      if id' = id then (s.scopes.get? id).map fun row => { row with closed := true }
      else s.scopes.get? id' := fun id' => get?_alter ..
  refine ⟨rfl, hi.header_ne, .inl rfl, subset_rfl, hi.process_issued, subset_rfl,
    fun id' hnone => ?_, fun id' op hop => ?_, fun id' row hrow => ?_, fun id' hnone => .inl ?_⟩
  · show (s.operations.filterMap _).get? id' = none
    rw [get?_filterMap, hnone, bind_none]
  · show ∃ op', (s.operations.filterMap _).get? id' = some op' ∧ _
    rw [get?_filterMap, hop, bind_some]
    refine ⟨_, rfl, ?_⟩
    split_ifs
    · exact ⟨rfl, rfl, rfl, rfl⟩
    · exact ⟨rfl, rfl, rfl, rfl⟩
  · rw [hscopes]
    split_ifs with heq
    · subst heq
      rw [hrow]
      exact ⟨_, rfl, rfl, fun _ => rfl⟩
    · exact ⟨row, hrow, rfl, fun h => h⟩
  · rw [hscopes]
    split_ifs with heq
    · subst heq
      rw [hnone, map_none]
    · exact hnone

/-- A new owner has a new scope. -/
lemma rewrites_prepareOwner (hi : s.Inv c) {fresh : Id} (hfresh : fresh ∉ s.issued)
    {admitted : Except Error Unit} {s' : Operations ρ δ}
    (h : s.prepareOwner fresh admitted = .ok s') : Rewrites s s' := by
  obtain ⟨_, -, heq⟩ := Loops.bind_eq_ok.mp h
  obtain rfl := (Except.ok.inj heq).symm
  refine ⟨rfl, hi.header_ne, .inl rfl, subset_insert _ _,
    mem_insert_of_mem hi.process_issued, subset_rfl, fun _ h => h,
    fun _ op h => ⟨op, h, rfl, rfl, rfl, rfl⟩, fun id row hrow => ?_, fun id hnone => ?_⟩
  · refine ⟨row, ?_, rfl, fun h => h⟩
    show (s.scopes.insert fresh {}).get? id = some row
    rw [get?_insert, if_neg, hrow]
    rintro rfl
    exact hfresh (hi.scopes_issued _ row hrow)
  · show (s.scopes.insert fresh {}).get? id = none ∨ _
    rw [get?_insert]
    split_ifs with heq
    · exact .inr ⟨.inr (.inr (heq ▸ hfresh)), heq ▸ mem_insert_self _ _⟩
    · exact .inl hnone

/-- Another process takes over. -/
lemma rewrites_openNamespace (hi : s.Inv c) {fresh : Id} (hfresh : fresh ∉ s.issued) :
    Rewrites s (s.openNamespace fresh) where
  header := rfl
  header_ne heq := by
    have heq : s.header = fresh := heq
    exact hfresh (heq ▸ hi.header_issued)
  process := .inr hfresh
  issued := subset_insert _ _
  process_issued := mem_insert_self _ _
  condemned := empty_subset _
  operations _ h := h
  receipts _ op h := ⟨op, h, rfl, rfl, rfl, rfl⟩
  scopes _ row h := ⟨row, h, rfl, fun h => h⟩
  absent _ h := .inl h

/-- Making sure that a scope exists. -/
lemma get?_ensureScope (s : Operations ρ δ) (id id' : Id) :
    (s.ensureScope id).scopes.get? id' =
      if id' = id then some ((s.scopes.get? id).getD {}) else s.scopes.get? id' :=
  get?_alter s.scopes id id' fun row => some (row.getD {})

/-- Taking up service closes scopes and adds those of the process and the namespace. -/
lemma rewrites_activate (hi : s.Inv c) {s' : Operations ρ δ} (h : s.activate = .ok s') :
    Rewrites s s' := by
  obtain ⟨-, heq⟩ := require_bind_eq_ok.mp h
  obtain rfl := (Except.ok.inj heq).symm
  set s₁ : Operations ρ δ :=
    { s with admission := .admitting, service := some (s.process, false) }.closeAbandoned with hs₁
  have hclosed : ∀ id, s₁.scopes.get? id = (s.scopes.get? id).bind fun row => some <|
      if id ≠ s.process ∧ id ≠ s.header ∧ id ∉ s.owners.keys then { row with closed := true }
      else row := fun id => get?_filterMap _ _ _
  have hscopes : ∀ id, ((s₁.ensureScope s.process).ensureScope s.header).scopes.get? id =
      if id = s.header ∨ id = s.process then some ((s₁.scopes.get? id).getD {})
      else s₁.scopes.get? id := by
    intro id
    rw [get?_ensureScope, get?_ensureScope, get?_ensureScope]
    by_cases hheader : id = s.header
    · subst hheader
      simp [hi.header_ne]
    · by_cases hprocess : id = s.process
      · subst hprocess
        simp [hheader]
      · simp [hheader, hprocess]
  refine ⟨rfl, hi.header_ne, .inl rfl, subset_rfl, hi.process_issued, subset_rfl, fun _ h => h,
    fun _ op h => ⟨op, h, rfl, rfl, rfl, rfl⟩, fun id row hrow => ?_, fun id hnone => ?_⟩
  · have hrow₁ := hclosed id
    rw [hrow, bind_some] at hrow₁
    have hget : ((s₁.ensureScope s.process).ensureScope s.header).scopes.get? id =
        s₁.scopes.get? id := by
      rw [hscopes, hrow₁]
      split_ifs <;> rfl
    refine ⟨_, hget.trans hrow₁, ?_, ?_⟩
    · split_ifs <;> rfl
    · split_ifs
      · exact fun _ => rfl
      · exact fun h => h
  · have hnone₁ : s₁.scopes.get? id = none := by rw [hclosed, hnone, bind_none]
    by_cases hid : id = s.header ∨ id = s.process
    · refine .inr ⟨hid.imp_right .inl, ?_⟩
      obtain rfl | rfl := hid
      · exact hi.header_issued
      · exact hi.process_issued
    · refine .inl ?_
      show ((s₁.ensureScope s.process).ensureScope s.header).scopes.get? id = none
      rw [hscopes, if_neg hid, hnone₁]

end Operations

end Tgrep.Managed
