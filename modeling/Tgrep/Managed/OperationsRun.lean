import Tgrep.Managed.OperationsInvariant

/-!
# What the calls on receipts do

The calls that do more than rewrite rows in place: an acceptance adds a receipt, an
acknowledgement and the cleanup remove some. Each keeps the invariant and advances.

## Main definitions

* `Operations.Removable`: what an acknowledgement may remove.

## Main results

* `Operations.acceptOperation_cases`: an acceptance is a replay or new work.
* `Operations.acceptOperation_replay`, `Operations.acceptOperation_conflict`: replays.
* `Operations.acknowledgeOperations_removed`: what an acknowledgement removes.
* `Operations.acceptOperation_spec`, `Operations.acknowledgeOperations_spec`,
  `Operations.inspectReceipt_spec`, `Operations.cleanupReceipt_spec`,
  `Operations.cleanupScope_spec`: they keep the invariant and advance.
-/

namespace Tgrep.Managed

open Option FinMap Loops List Finset

namespace Operations

variable {ρ δ : Type} {c : RequestCodec ρ δ} {s s' : Operations ρ δ}

/-! ## Acknowledging -/

variable {n through : ℕ} {scope : Id} {a : AcceptRequest ρ} {id : Id} {op : Receipt ρ δ}

/-- The operations of a scope up to a number. -/
lemma mem_upTo :
    id ∈ s.upTo scope through ↔
      ∃ op, s.operations.get? id = some op ∧ op.token.scope = scope ∧
        op.token.sequence ≤ through := by
  unfold upTo
  rw [Finset.mem_filter, FinMap.mem_keys]
  constructor
  · rintro ⟨⟨op, hop⟩, hany⟩
    rw [hop, any_some, decide_eq_true_eq] at hany
    exact ⟨op, hop, hany⟩
  · rintro ⟨op, hop, hcovered⟩
    refine ⟨⟨op, hop⟩, ?_⟩
    rw [hop, any_some]
    exact decide_eq_true hcovered

/-- **What an acknowledgement does**: nothing below the floor, and otherwise it removes the
operations up to the number, none of which is held, unfinished or needed, and raises the floor. -/
theorem acknowledgeOperations_cases (h : s.acknowledgeOperations scope through = .ok (n, s')) :
    s' = s ∨ ∃ row, s.scopes.get? scope = some row ∧ row.floor < through ∧
      (∀ id ∈ s.readers.keys, id ∉ s.upTo scope through) ∧
      (∀ id ∈ s.upTo scope through, s.ended id = true) ∧
      (∀ id ∈ s.upTo scope through, ¬ (id ∈ s.preparing ∨ id ∈ s.reserved)) ∧
      s' = { s with
        operations := s.operations.filter fun id _ => id ∉ s.upTo scope through
        scopes := s.scopes.insert scope { row with floor := through } } := by
  unfold acknowledgeOperations at h
  cases hrow : s.scopes.get? scope with
  | none =>
    rw [hrow] at h
    cases h
  | some row =>
    simp only [hrow] at h
    by_cases hfloor : through ≤ row.floor
    · rw [if_pos hfloor] at h
      exact .inl (Prod.mk.inj (Except.ok.inj h)).2.symm
    · rw [if_neg hfloor, sqlInteger, require_bind_eq_ok, require_bind_eq_ok, require_bind_eq_ok,
        require_bind_eq_ok] at h
      obtain ⟨-, hreaders, hended, hneeded, heq⟩ := h
      exact .inr ⟨row, rfl, not_le.mp hfloor, hreaders, hended, hneeded,
        (Prod.mk.inj (Except.ok.inj heq)).2.symm⟩

/-- The operation has ended and is not needed by a reader, a reservation or a preparation. -/
structure Removable (s : Operations ρ δ) (id : Id) (op : Receipt ρ δ) : Prop where
  ended : op.state.terminal = true
  reserved : id ∉ s.reserved
  preparing : id ∉ s.preparing
  readers : id ∉ s.readers.keys

/-- **An acknowledgement removes only what has ended and nobody needs.** -/
theorem acknowledgeOperations_removed (h : s.acknowledgeOperations scope through = .ok (n, s'))
    (hop : s.operations.get? id = some op) (hremoved : s'.operations.get? id = none) :
    Removable s id op := by
  obtain rfl | ⟨row, -, -, hreaders, hended, hneeded, rfl⟩ := acknowledgeOperations_cases h
  · rw [hop] at hremoved
    cases hremoved
  · have hmem : id ∈ s.upTo scope through := by
      by_contra hnot
      have hkept : (s.operations.filter fun id _ => id ∉ s.upTo scope through).get? id = some op :=
        get?_filter_eq_some.mpr ⟨hop, decide_eq_true hnot⟩
      rw [hkept] at hremoved
      cases hremoved
    have hneed := hneeded id hmem
    refine ⟨?_, fun hin => hneed (.inr hin), fun hin => hneed (.inl hin),
      fun hin => hreaders id hin hmem⟩
    have hend := hended id hmem
    rwa [ended, hop] at hend

/-- An acknowledgement keeps the invariant and advances. -/
lemma acknowledgeOperations_spec (hi : s.Inv c)
    (h : s.acknowledgeOperations scope through = .ok (n, s')) : s'.Inv c ∧ Advances s s' := by
  obtain rfl | ⟨row, hrow, hfloor, -, -, -, rfl⟩ := acknowledgeOperations_cases h
  · exact ⟨hi, Advances.refl _⟩
  · have hops : ∀ id op,
        (s.operations.filter fun id _ => id ∉ s.upTo scope through).get? id = some op ↔
          s.operations.get? id = some op ∧ id ∉ s.upTo scope through := by
      intro id op
      rw [get?_filter_eq_some, decide_eq_true_eq]
    have hscopes : ∀ id,
        (s.scopes.insert scope { row with floor := through }).get? id =
          if id = scope then some { row with floor := through } else s.scopes.get? id :=
      fun id => get?_insert _ _ _ _
    refine ⟨⟨hi.header_ne, hi.header_issued, hi.process_issued, fun id row' hrow' => ?_,
      fun id op hop => hi.operations_issued id op ((hops id op).mp hop).1, hi.condemned_issued,
      fun id op hop => hi.accepted id op ((hops id op).mp hop).1,
      fun id op id' op' hop hop' => hi.unique id op id' op' ((hops id op).mp hop).1
        ((hops id' op').mp hop').1, fun id op hop => ?_, fun id hid op hop row' hrow' => ?_⟩,
      ⟨rfl, .inl rfl, subset_rfl, fun id op hop => ?_, fun id row' hrow' => ?_,
        fun id hnone => .inl ?_⟩⟩
    · rw [hscopes] at hrow'
      split_ifs at hrow' with heq
      · exact heq ▸ hi.scopes_issued scope row hrow
      · exact hi.scopes_issued id row' hrow'
    · obtain ⟨hop, hnot⟩ := (hops id op).mp hop
      obtain ⟨row₁, hrow₁, hlt⟩ := hi.inScope id op hop
      simp only [hscopes]
      split_ifs with heq
      · refine ⟨_, rfl, ?_⟩
        by_contra hle
        exact hnot (mem_upTo.mpr ⟨op, hop, heq, not_lt.mp hle⟩)
      · exact ⟨row₁, hrow₁, hlt⟩
    · obtain ⟨hop, -⟩ := (hops id op).mp hop
      simp only [hscopes] at hrow'
      split_ifs at hrow' with heq
      · obtain rfl := some.inj hrow'
        exact hi.condemned_closed id hid op hop row (heq ▸ hrow)
      · exact hi.condemned_closed id hid op hop row' hrow'
    · by_cases hmem : id ∈ s.upTo scope through
      · obtain ⟨op', hop', hscope, hle⟩ := mem_upTo.mp hmem
        rw [hop] at hop'
        obtain rfl := some.inj hop'
        refine .inr ⟨{ row with floor := through }, ?_, .inl hle⟩
        rw [hscopes, if_pos hscope]
      · exact .inl ⟨op, (hops id op).mpr ⟨hop, hmem⟩, rfl, rfl, rfl, rfl⟩
    · refine .inl ?_
      simp only [hscopes]
      split_ifs with heq
      · subst heq
        rw [hrow] at hrow'
        obtain rfl := some.inj hrow'
        exact ⟨_, rfl, hfloor.le, fun h => h⟩
      · exact ⟨row', hrow', le_rfl, fun h => h⟩
    · rw [hscopes, if_neg, hnone]
      rintro rfl
      rw [hrow] at hnone
      cases hnone

/-! ## Cleanup -/

/-- Coming to a receipt condemns it only if its scope is closed. -/
lemma inspectReceipt_spec (hi : s.Inv c) {guardEnded : Except Error Bool}
    (h : s.inspectReceipt id guardEnded = .ok s') : s'.Inv c ∧ Advances s s' := by
  unfold inspectReceipt at h
  cases hop : s.operations.get? id with
  | none =>
    rw [hop] at h
    obtain rfl := Except.ok.inj h
    exact ⟨hi, Advances.refl _⟩
  | some op =>
    simp only [hop] at h
    by_cases hterminal : ¬ op.state.terminal = true
    · rw [if_pos hterminal] at h
      obtain rfl := Except.ok.inj h
      exact ⟨hi, Advances.refl _⟩
    · rw [if_neg hterminal, bind_eq_ok] at h
      obtain ⟨retire, hretire, heq⟩ := h
      obtain rfl := (Except.ok.inj heq).symm
      cases retire with
      | false => exact ⟨hi, Advances.refl _⟩
      | true =>
        refine ⟨⟨hi.header_ne, hi.header_issued, hi.process_issued, hi.scopes_issued,
          hi.operations_issued, ?_, hi.accepted, hi.unique, hi.inScope,
          fun id' hid' op' hop' row hrow => ?_⟩, ⟨rfl, .inl rfl, subset_rfl,
          fun _ op h => .inl ⟨op, h, rfl, rfl, rfl, rfl⟩,
          fun _ row h => .inl ⟨row, h, le_rfl, fun h => h⟩, fun _ h => .inl h⟩⟩
        · exact insert_subset (hi.operations_issued id op hop) hi.condemned_issued
        · obtain rfl | hid' := mem_insert.mp hid'
          · have hop'' : s.operations.get? id' = some op' := hop'
            rw [hop] at hop''
            obtain rfl := some.inj hop''
            have hrow'' : s.scopes.get? op.token.scope = some row := hrow
            unfold scopeCanRetire at hretire
            by_cases hown : op.token.scope = s.process ∨ op.token.scope = s.header
            · rw [if_pos hown] at hretire
              cases hretire
            · rw [if_neg hown, hrow'', map_some, getD_some] at hretire
              by_contra hopen
              rw [if_pos hopen] at hretire
              cases hretire
          · exact hi.condemned_closed id' hid' op' hop' row hrow

/-- Deleting a receipt leaves its number to a closed scope. -/
lemma cleanupReceipt_spec (hi : s.Inv c) (id : Id) :
    (s.cleanupReceipt id).Inv c ∧ Advances s (s.cleanupReceipt id) := by
  unfold cleanupReceipt
  by_cases hskip : id ∉ s.condemned ∨ s.readers.contains id = true
  · rw [if_pos hskip]
    exact ⟨hi, Advances.refl s⟩
  · rw [if_neg hskip]
    obtain ⟨hcondemned, -⟩ := not_or.mp hskip
    by_cases hblocked : id ∈ s.reserved ∨ id ∈ s.preparing ∨ id ∈ s.referenced
    · rw [if_pos hblocked]
      exact ⟨hi, Advances.refl s⟩
    · rw [if_neg hblocked]
      have hops : ∀ id' op, (s.operations.erase id).get? id' = some op ↔
          id' ≠ id ∧ s.operations.get? id' = some op := by
        intro id' op
        rw [get?_erase]
        split_ifs with heq
        · simp [heq]
        · simp [heq]
      refine ⟨⟨hi.header_ne, hi.header_issued, hi.process_issued, hi.scopes_issued,
        fun id' op hop => hi.operations_issued id' op ((hops id' op).mp hop).2,
        hi.condemned_issued, fun id' op hop => hi.accepted id' op ((hops id' op).mp hop).2,
        fun id₁ op₁ id₂ op₂ h₁ h₂ => hi.unique id₁ op₁ id₂ op₂ ((hops id₁ op₁).mp h₁).2
          ((hops id₂ op₂).mp h₂).2, fun id' op hop => hi.inScope id' op ((hops id' op).mp hop).2,
        fun id' hid' op hop => hi.condemned_closed id' hid' op ((hops id' op).mp hop).2⟩,
        ⟨rfl, .inl rfl, subset_rfl, fun id' op hop => ?_,
          fun _ row h => .inl ⟨row, h, le_rfl, fun h => h⟩, fun _ h => .inl h⟩⟩
      by_cases heq : id' = id
      · subst heq
        obtain ⟨row, hrow, -⟩ := hi.inScope id' op hop
        exact .inr ⟨row, hrow,
          .inr (hi.condemned_closed id' (not_not.mp hcondemned) op hop row hrow)⟩
      · exact .inl ⟨op, (hops id' op).mpr ⟨heq, hop⟩, rfl, rfl, rfl, rfl⟩

/-- A scope without receipts has none in the table. -/
lemma not_hasReceipts (h : ¬ s.hasReceipts scope = true) (hop : s.operations.get? id = some op) :
    op.token.scope ≠ scope := by
  intro heq
  refine h (any_eq_true.mpr ⟨(id, op), mem_toList.mpr hop, ?_⟩)
  exact decide_eq_true heq

/-- Deleting a scope: it is not that of the namespace or the process, and no receipt is left. -/
lemma cleanupScope_spec (hi : s.Inv c) (id : Id) :
    (s.cleanupScope id).Inv c ∧ Advances s (s.cleanupScope id) := by
  unfold cleanupScope
  by_cases hown : id = s.header ∨ id = s.process
  · rw [if_pos hown]
    exact ⟨hi, Advances.refl s⟩
  · rw [if_neg hown]
    obtain ⟨hheader, hprocess⟩ := not_or.mp hown
    cases hrow : s.scopes.get? id with
    | none => exact ⟨hi, Advances.refl s⟩
    | some row =>
      simp only
      by_cases hkeep : ¬ row.closed = true ∨ s.hasReceipts id = true ∨ s.owners.contains id = true
      · rw [if_pos hkeep]
        exact ⟨hi, Advances.refl s⟩
      · rw [if_neg hkeep]
        obtain ⟨-, hkeep⟩ := not_or.mp hkeep
        obtain ⟨hempty, -⟩ := not_or.mp hkeep
        have hscopes : ∀ id', id' ≠ id →
            (s.scopes.erase id).get? id' = s.scopes.get? id' := by
          intro id' hne
          rw [get?_erase, if_neg hne]
        refine ⟨⟨hi.header_ne, hi.header_issued, hi.process_issued, fun id' row' hrow' => ?_,
          hi.operations_issued, hi.condemned_issued, hi.accepted, hi.unique,
          fun id' op hop => ?_, fun id' hid' op hop row' hrow' => ?_⟩,
          ⟨rfl, .inl rfl, subset_rfl, fun _ op h => .inl ⟨op, h, rfl, rfl, rfl, rfl⟩,
            fun id' row' hrow' => ?_, fun id' hnone => .inl ?_⟩⟩
        · have hget : (s.scopes.erase id).get? id' = some row' := hrow'
          rw [get?_erase] at hget
          split_ifs at hget
          exact hi.scopes_issued id' row' hget
        · obtain ⟨row', hrow', hlt⟩ := hi.inScope id' op hop
          exact ⟨row', (hscopes _ (not_hasReceipts hempty hop)).trans hrow', hlt⟩
        · exact hi.condemned_closed id' hid' op hop row'
            ((hscopes _ (not_hasReceipts hempty hop)).symm.trans hrow')
        · by_cases heq : id' = id
          · refine .inr ⟨?_, heq ▸ hheader, heq ▸ hprocess⟩
            rw [heq]
            exact get?_erase_self _ _
          · exact .inl ⟨row', (hscopes id' heq).trans hrow', le_rfl, fun h => h⟩
        · show (s.scopes.erase id).get? id' = none
          rw [get?_erase]
          split_ifs
          · rfl
          · exact hnone

/-! ## Accepting -/

/-- A receipt with the sequence or the token asked for is found. -/
lemma prior_eq_some (hi : s.Inv c) (hop : s.operations.get? id = some op)
    {token : OperationToken} (hmatch : matching token (id, op) = true) :
    ∃ row, s.prior token = some row ∧ s.operations.get? row.1 = some row.2 ∧
      (op.token = token → row = (id, op)) := by
  have hmem : (id, op) ∈ s.operations.toList := mem_toList.mpr hop
  cases hprior : s.prior token with
  | none =>
    have hnone := find?_eq_none.mp hprior (id, op) hmem
    exact absurd hmatch hnone
  | some row =>
    have hrow : s.operations.get? row.1 = some row.2 :=
      mem_toList.mp (mem_of_find?_eq_some hprior)
    refine ⟨row, rfl, hrow, fun htoken => ?_⟩
    have hid : id = row.1 := by
      refine hi.unique id op row.1 row.2 hop hrow ?_
      rw [htoken]
      exact find?_some hprior
    have hrow' : s.operations.get? id = some row.2 := hid ▸ hrow
    rw [hop] at hrow'
    exact Prod.ext hid.symm (some.inj hrow').symm

/-- Without one, no receipt has the sequence asked for. -/
lemma prior_eq_none {token : OperationToken} (h : s.prior token = none)
    (hop : s.operations.get? id = some op) : ¬ matching token (id, op) = true :=
  find?_eq_none.mp h (id, op) (mem_toList.mpr hop)

variable [DecidableEq δ]

/-- **An acceptance is a replay or new work.** -/
theorem acceptOperation_cases (h : s.acceptOperation c a = .ok ((id, op), s')) :
    (s' = s ∧ s.operations.get? id = some op ∧ op.digest = c.digest a.kind a.request ∧
      op.token = a.token) ∨
    (a.token.validate = .ok () ∧ Encodable c a.kind a.request ∧
      (∃ row, s.scopes.get? a.token.scope = some row ∧ row.floor < a.token.sequence ∧
        row.closed = false) ∧
      s.prior a.token = none ∧ id = a.fresh ∧ op = newReceipt c s a ∧
      s' = { s with
        operations := s.operations.insert a.fresh (newReceipt c s a)
        issued := insert a.fresh s.issued }) := by
  unfold acceptOperation at h
  obtain ⟨u, hvalid, h⟩ := bind_eq_ok.mp h
  obtain ⟨limits, -, h⟩ := bind_eq_ok.mp h
  obtain ⟨_, -, h⟩ := bind_eq_ok.mp h
  obtain ⟨hencodable, h⟩ := require_bind_eq_ok.mp h
  cases hscope : s.scopes.get? a.token.scope with
  | none =>
    rw [hscope] at h
    cases h
  | some row =>
    rw [hscope] at h
    obtain ⟨hfloor, h⟩ := require_bind_eq_ok.mp h
    cases hprior : s.prior a.token with
    | some row' =>
      rw [hprior] at h
      obtain ⟨hsame, heq⟩ := require_bind_eq_ok.mp h
      obtain ⟨hdigest, htoken⟩ := not_or.mp hsame
      obtain ⟨rfl, rfl⟩ := Prod.mk.inj (Except.ok.inj heq)
      exact .inl ⟨rfl, mem_toList.mp (mem_of_find?_eq_some hprior),
        not_not.mp hdigest, not_not.mp htoken⟩
    | none =>
      rw [hprior] at h
      unfold acceptNew at h
      obtain ⟨hopen, h⟩ := require_bind_eq_ok.mp h
      obtain ⟨_, -, h⟩ := bind_eq_ok.mp h
      obtain ⟨_, -, h⟩ := bind_eq_ok.mp h
      obtain ⟨-, h⟩ := require_bind_eq_ok.mp h
      obtain ⟨-, h⟩ := require_bind_eq_ok.mp h
      obtain ⟨-, h⟩ := require_bind_eq_ok.mp h
      obtain ⟨hrow, rfl⟩ := Prod.mk.inj (Except.ok.inj h)
      obtain ⟨rfl, rfl⟩ := Prod.mk.inj hrow
      exact .inr ⟨hvalid, hencodable, ⟨row, rfl, not_le.mp hfloor, by simpa using hopen⟩, rfl,
        rfl, rfl, rfl⟩

/-- **A replay returns the operation that the request already is.** -/
theorem acceptOperation_replay (hi : s.Inv c) (hop : s.operations.get? id = some op)
    (htoken : a.token = op.token) (hkind : a.kind = op.kind) (hrequest : a.request = op.request)
    (hlimits : ∃ limits, a.limits = .ok limits) (hnow : a.now = .ok ()) :
    s.acceptOperation c a = .ok ((id, op), s) := by
  obtain ⟨hvalid, hdigest, hencodable⟩ := hi.accepted id op hop
  obtain ⟨row, hrow, hfloor⟩ := hi.inScope id op hop
  obtain ⟨limits, hlimits⟩ := hlimits
  obtain ⟨found, hfound, -, hsame⟩ := prior_eq_some hi hop (matching_of_token htoken.symm)
  obtain rfl := hsame htoken.symm
  unfold acceptOperation
  rw [htoken] at hfound ⊢
  refine bind_eq_ok.mpr ⟨(), hvalid, bind_eq_ok.mpr ⟨limits, hlimits,
    bind_eq_ok.mpr ⟨(), hnow, require_bind_eq_ok.mpr ⟨?_, ?_⟩⟩⟩⟩
  · rwa [hkind, hrequest]
  · rw [hrow]
    refine require_bind_eq_ok.mpr ⟨not_le.mpr hfloor, ?_⟩
    rw [hfound]
    refine require_bind_eq_ok.mpr ⟨not_or.mpr ⟨?_, fun h => h rfl⟩, rfl⟩
    rw [hkind, hrequest]
    exact fun h => h hdigest

/-- **Any other request with the number or the token of a receipt is refused.** -/
theorem acceptOperation_conflict (hi : s.Inv c)
    (hdigest : ∀ kind kind' request request', c.digest kind request = c.digest kind' request' →
      kind = kind' ∧ request = request') (hop : s.operations.get? id = some op)
    (hmatch : matching a.token (id, op) = true)
    (hother : ¬ (a.token = op.token ∧ a.kind = op.kind ∧ a.request = op.request)) :
    ∃ e, s.acceptOperation c a = .error e := by
  cases h : s.acceptOperation c a with
  | error e => exact ⟨e, rfl⟩
  | ok result =>
    obtain ⟨⟨id', op'⟩, s'⟩ := result
    exfalso
    obtain ⟨-, hop', hsame, htoken⟩ | ⟨-, -, -, hprior, -⟩ := acceptOperation_cases h
    · rw [← htoken] at hmatch
      obtain rfl := hi.unique id' op' id op hop' hop hmatch
      rw [hop] at hop'
      obtain rfl := some.inj hop'
      rw [(hi.accepted _ _ hop).digest] at hsame
      obtain ⟨hkind, hrequest⟩ := hdigest _ _ _ _ hsame
      exact hother ⟨htoken.symm, hkind.symm, hrequest.symm⟩
    · exact prior_eq_none hprior hop hmatch

omit [DecidableEq δ] in
/-- The matching of two tokens is symmetric. -/
lemma matching_comm {op' : Receipt ρ δ} {id' : Id} :
    matching op.token (id', op') = matching op'.token (id, op) := by
  simp only [matching, eq_comm]

/-- New work keeps the invariant and advances. -/
lemma acceptOperation_spec (hi : s.Inv c) (hfresh : a.fresh ∉ s.issued) {row : Id × Receipt ρ δ}
    (h : s.acceptOperation c a = .ok (row, s')) : s'.Inv c ∧ Advances s s' := by
  obtain ⟨id, op⟩ := row
  obtain ⟨rfl, -⟩ | ⟨hvalid, hencodable, ⟨scope, hscope, hfloor, hopen⟩, hprior, rfl, rfl, rfl⟩ :=
    acceptOperation_cases h
  · exact ⟨hi, Advances.refl _⟩
  · have hnew : s.operations.get? a.fresh = none := by
      cases hget : s.operations.get? a.fresh with
      | none => rfl
      | some op => exact absurd (hi.operations_issued _ op hget) hfresh
    have hops : ∀ id op, (s.operations.insert a.fresh (newReceipt c s a)).get? id = some op →
        (id = a.fresh ∧ op = newReceipt c s a) ∨ s.operations.get? id = some op := by
      intro id op hop
      rw [get?_insert] at hop
      split_ifs at hop with heq
      · exact .inl ⟨heq, (some.inj hop).symm⟩
      · exact .inr hop
    refine ⟨⟨hi.header_ne, mem_insert_of_mem hi.header_issued, mem_insert_of_mem hi.process_issued,
      fun id row hrow => mem_insert_of_mem (hi.scopes_issued id row hrow),
      fun id op hop => ?_, hi.condemned_issued.trans (subset_insert _ _),
      fun id op hop => ?_, fun id op id' op' hop hop' hmatch => ?_, fun id op hop => ?_,
      fun id hid op hop row hrow => ?_⟩,
      ⟨rfl, .inl rfl, subset_insert _ _, fun id op hop => .inl ⟨op, ?_, rfl, rfl, rfl, rfl⟩,
        fun _ row h => .inl ⟨row, h, le_rfl, fun h => h⟩, fun _ h => .inl h⟩⟩
    · obtain ⟨rfl, -⟩ | hop := hops id op hop
      · exact mem_insert_self _ _
      · exact mem_insert_of_mem (hi.operations_issued id op hop)
    · obtain ⟨-, rfl⟩ | hop := hops id op hop
      · exact ⟨hvalid, rfl, hencodable⟩
      · exact hi.accepted id op hop
    · obtain ⟨rfl, rfl⟩ | hop := hops id op hop
      · obtain ⟨rfl, -⟩ | hop' := hops id' op' hop'
        · rfl
        · exact absurd hmatch (prior_eq_none hprior hop')
      · obtain ⟨rfl, rfl⟩ | hop' := hops id' op' hop'
        · rw [matching_comm] at hmatch
          exact absurd hmatch (prior_eq_none hprior hop)
        · exact hi.unique id op id' op' hop hop' hmatch
    · obtain ⟨-, rfl⟩ | hop := hops id op hop
      · exact ⟨scope, hscope, hfloor⟩
      · exact hi.inScope id op hop
    · obtain ⟨rfl, -⟩ | hop := hops id op hop
      · exact absurd (hi.condemned_issued hid) hfresh
      · exact hi.condemned_closed id hid op hop row hrow
    · show (s.operations.insert a.fresh (newReceipt c s a)).get? id = some op
      rw [get?_insert, if_neg, hop]
      rintro rfl
      rw [hnew] at hop
      cases hop

end Operations

end Tgrep.Managed
