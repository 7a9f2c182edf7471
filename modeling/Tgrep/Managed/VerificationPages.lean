import Tgrep.Managed.VerificationTurn

/-!
# A verification in pages is a whole pass

However the work is cut into pages, a verification reports that a member is complete exactly when
one pass over everything would accept it. Between pages it knows the prefix that it has processed:
every read begins where the read before it ended.

## Main definitions

* `Session.Sound`: what is known after some pages.
* `Pass.Quiet`, `Pass.effective`: passes in which nothing else fails, and in which something can
  be read.

## Main results

* `Verification.loop_spec`, `Verification.page_spec`: what the turns of a page and a page do.
* `Session.Sound.step`, `Session.run_progress`: what a page keeps, and that enough pages decide.
* `Session.pages_refine_whole`: the pages compared with the whole pass.
-/

namespace Tgrep.Managed.Authentication

open List

open Collection (BLOCK_BYTES divCeil)

namespace Verification

variable {η : Type} {blake3 : IncrementalHash UInt8 η Digest} {content : List UInt8}
  {rows : ProofRows} {pass : Pass}

/-! ## A page -/

/-- What a loop does. -/
def LoopSpec (blake3 : IncrementalHash UInt8 η Digest) (content : List UInt8) (rows : ProofRows)
    (pass : Pass) (fuel k : ℕ) (p : Page η) : Except Error Unit × Page η → Prop
  | (.ok (), p') => Advanced blake3 content rows pass p p' ∧ p'.verification.Unfinished ∧
      (fuel ≠ 0 → pass.expired k = false → p.read < pass.allowance →
        p.verification.nextBlock < p.verification.memberSeal.blocks.toNat →
        p.verification.position + p.verification.nextBlock <
          p'.verification.position + p'.verification.nextBlock)
  | (.error e, _) => Failed blake3 content rows pass p.verification.memberSeal e

/-- **The loop**, by induction on the blocks that the page may still verify. -/
lemma loop_spec (fuel k : ℕ) {p : Page η} (h : p.verification.Invariant blake3 content rows)
    (hopen : p.verification.Unfinished) (hread : p.read ≤ pass.allowance) :
    LoopSpec blake3 content rows pass fuel k p (loop blake3 content rows pass fuel k p) := by
  induction fuel generalizing k p with
  | zero => exact ⟨Advanced.refl h hread, hopen, fun hne => absurd rfl hne⟩
  | succ fuel ih =>
    unfold loop
    by_cases hlt : p.verification.nextBlock < p.verification.memberSeal.blocks.toNat
    · rw [if_pos hlt]
      have hturn := @turn_spec _ _ _ _ k _ pass h hopen hlt hread
      rcases hresult : turn blake3 content rows pass k p with ⟨t, q⟩
      rw [hresult] at hturn
      cases t with
      | next =>
        obtain ⟨hadvanced, hopen', hnext⟩ := hturn
        have hrest := ih (k + 1) hadvanced.invariant hopen' hadvanced.read_le
        dsimp only
        rcases hloop : loop blake3 content rows pass fuel (k + 1) q with ⟨result, r⟩
        rw [hloop] at hrest
        cases result with
        | ok u =>
          refine ⟨hadvanced.trans hrest.1, hrest.2.1, fun _ _ _ _ => ?_⟩
          have hone := hadvanced.position_le
          have htwo := hrest.1.position_le
          have hthree := hrest.1.next_le
          omega
        | error e =>
          have hfail : Failed blake3 content rows pass q.verification.memberSeal e := hrest
          rw [hadvanced.memberSeal] at hfail
          exact hfail
      | leave =>
        obtain ⟨hadvanced, hopen', hprogress⟩ := hturn
        refine ⟨hadvanced, hopen', fun _ hexpired hless _ => ?_⟩
        have hone := hprogress hexpired hless
        have htwo := hadvanced.next_le
        omega
      | fail e => exact hturn
    · rw [if_neg hlt]
      exact ⟨Advanced.refl h hread, hopen, fun _ _ _ hnot => absurd hnot hlt⟩

/-- The blocks that are accepted are determined by their rows. -/
lemma blocks_unique {memberSeal : MemberSeal} {blocks blocks' : List Block}
    (hlength : blocks.length = blocks'.length)
    (h : ∀ i b, blocks[i]? = some b → BlockOk blake3 rows memberSeal content i b)
    (h' : ∀ i b, blocks'[i]? = some b → BlockOk blake3 rows memberSeal content i b) :
    blocks = blocks' := by
  refine ext_getElem hlength fun i hi hi' => ?_
  obtain ⟨r, hr, hb⟩ := (h i _ (getElem?_eq_getElem hi)).row
  obtain ⟨r', hr', hb'⟩ := (h' i _ (getElem?_eq_getElem hi')).row
  rw [hr] at hr'
  cases hr'
  rw [hb] at hb'
  exact Except.ok.inj hb'

variable {v : Verification η}

/-- When all blocks are processed, the last comparison of a page is that of the whole pass. -/
lemma Invariant.whole_iff (h : v.Invariant blake3 content rows)
    (hdone : v.nextBlock = v.memberSeal.blocks.toNat) :
    WholePass blake3 rows v.memberSeal content ↔
      ¬ (rowsFrom rows v.memberSeal.blocks.toNat ≠ [] ∨
        blake3.finalize v.manifest ≠ v.memberSeal.manifest) := by
  obtain ⟨blocks, hlength, hblocks, hmanifest⟩ := h.accepted
  rw [hmanifest.finalize]
  have hextra : rowsFrom rows v.memberSeal.blocks.toNat = [] ↔
      ∀ i ∈ rows.keys, i < v.memberSeal.blocks.toNat := by
    rw [eq_nil_iff_forall_not_mem]
    constructor
    · intro hnone i hi
      obtain ⟨r, hr⟩ := FinMap.mem_keys.mp hi
      by_contra hge
      exact hnone (i, r) (mem_rowsFrom.mpr ⟨hr, Nat.le_of_not_lt hge⟩)
    · intro hkeys row hrow
      obtain ⟨hget, hle⟩ := mem_rowsFrom.mp hrow
      have hless := hkeys row.1 (FinMap.mem_keys_of_get? hget)
      omega
  push Not
  rw [hextra]
  constructor
  · rintro ⟨blocks', hlength', hblocks', hkeys, hhash⟩
    rw [blocks_unique (by rw [hlength, hlength', hdone]) hblocks hblocks']
    exact ⟨hkeys, hhash⟩
  · rintro ⟨hkeys, hhash⟩
    exact ⟨blocks, hlength.trans hdone, hblocks, hkeys, hhash⟩

/-- What the end of a page does. -/
def FinishSpec (blake3 : IncrementalHash UInt8 η Digest) (content : List UInt8) (rows : ProofRows)
    (pass : Pass) (p : Page η) : Except Error Bool × Page η → Prop
  | (.ok true, p') => p'.verification.complete = true ∧
      p' = { p with verification := { p.verification with complete := true } } ∧
      p'.verification.Invariant blake3 content rows
  | (.ok false, p') => p' = p ∧
      p.verification.nextBlock < p.verification.memberSeal.blocks.toNat
  | (.error e, _) => Failed blake3 content rows pass p.verification.memberSeal e

/-- The end of a page. -/
lemma finish_spec {p : Page η} (h : p.verification.Invariant blake3 content rows) :
    FinishSpec blake3 content rows pass p (finish blake3 rows pass p) := by
  unfold finish
  cases hends : pass.outcome .ends with
  | error e => exact .inr ⟨_, hends⟩
  | ok u =>
    dsimp only
    by_cases hdone : p.verification.nextBlock = p.verification.memberSeal.blocks.toNat
    · rw [if_pos hdone]
      cases hextra : pass.outcome .extra with
      | error e => exact .inr ⟨_, hextra⟩
      | ok u =>
        dsimp only
        by_cases hbad : rowsFrom rows p.verification.memberSeal.blocks.toNat ≠ [] ∨
            blake3.finalize p.verification.manifest ≠ p.verification.memberSeal.manifest
        · rw [if_pos hbad]
          exact .inl fun hwhole => (h.whole_iff hdone).mp hwhole hbad
        · rw [if_neg hbad]
          cases hverified : pass.outcome .verified with
          | error e => exact .inr ⟨_, hverified⟩
          | ok u =>
            exact ⟨rfl, rfl, { h with complete := fun _ => ⟨hdone, (h.whole_iff hdone).mpr hbad⟩ }⟩
    · rw [if_neg hdone]
      exact ⟨rfl, lt_of_le_of_ne h.next_le hdone⟩

/-- What a page does. -/
def PageSpec (blake3 : IncrementalHash UInt8 η Digest) (content : List UInt8) (rows : ProofRows)
    (pass : Pass) (v : Verification η) : Except Error Bool × Page η → Prop
  | (.ok done, p) => p.verification.Invariant blake3 content rows ∧ p.verification.Unfinished ∧
      p.verification.memberSeal = v.memberSeal ∧
      Tiles v.position p.reads p.verification.position ∧
      p.read ≤ pass.allowance ∧
      p.progress.verificationBytes + v.position =
        pass.progress.verificationBytes + p.verification.position ∧
      (done = true → p.verification.complete = true) ∧
      (done = false → p.verification.nextBlock < p.verification.memberSeal.blocks.toNat ∧
        v.position + v.nextBlock ≤ p.verification.position + p.verification.nextBlock ∧
        (pass.expired 0 = false → 0 < pass.allowance →
          v.position + v.nextBlock < p.verification.position + p.verification.nextBlock))
  | (.error e, _) => Failed blake3 content rows pass v.memberSeal e

/-- **A page.** -/
lemma page_spec (h : v.Invariant blake3 content rows) (hopen : v.Unfinished) :
    PageSpec blake3 content rows pass v (page blake3 content rows pass v) := by
  unfold page
  cases hbegins : pass.outcome .begins with
  | error e => exact .inr ⟨_, hbegins⟩
  | ok u =>
    dsimp only
    by_cases hcomplete : v.complete = true
    · rw [if_pos hcomplete]
      exact ⟨h, hopen, rfl, rfl, Nat.zero_le _, rfl, fun _ => hcomplete, fun hnot => (nomatch hnot)⟩
    · rw [if_neg hcomplete]
      set p : Page η := ⟨v, 0, { pass.progress with
        verificationPages := pass.progress.verificationPages + 1 }, []⟩ with hp
      have hloop : LoopSpec blake3 content rows pass PAGE_BLOCKS 0 p
          (loop blake3 content rows pass PAGE_BLOCKS 0 p) := loop_spec _ _ h hopen (Nat.zero_le _)
      rcases hresult : loop blake3 content rows pass PAGE_BLOCKS 0 p with ⟨result, q⟩
      rw [hresult] at hloop
      cases result with
      | error e => exact hloop
      | ok u =>
        obtain ⟨hadvanced, hopen', hprogress⟩ := hloop
        have hfinish := @finish_spec _ _ _ _ pass _ hadvanced.invariant
        dsimp only
        rcases hend : finish blake3 rows pass q with ⟨result, r⟩
        rw [hend] at hfinish
        obtain ⟨more, hmore, htiles⟩ := hadvanced.reads
        rw [hp, nil_append] at hmore
        rw [← hmore] at htiles
        cases result with
        | error e =>
          have hfail : Failed blake3 content rows pass q.verification.memberSeal e := hfinish
          rw [hadvanced.memberSeal] at hfail
          exact hfail
        | ok done =>
          cases done with
          | true =>
            obtain ⟨hcomplete, rfl, hinv⟩ := hfinish
            exact ⟨hinv, hopen', hadvanced.memberSeal, htiles, hadvanced.read_le,
              hadvanced.bytes, fun _ => rfl, fun hnot => (nomatch hnot)⟩
          | false =>
            obtain ⟨rfl, hlt⟩ := hfinish
            refine ⟨hadvanced.invariant, hopen', hadvanced.memberSeal, htiles, hadvanced.read_le,
              hadvanced.bytes, fun hnot => (nomatch hnot),
              fun _ => ⟨hlt, ?_, fun hexpired hallowance => ?_⟩⟩
            · exact Nat.add_le_add hadvanced.position_le hadvanced.next_le
            · refine hprogress (by decide) hexpired hallowance ?_
              have hnext := hadvanced.next_le
              rw [hadvanced.memberSeal] at hlt
              exact Nat.lt_of_le_of_lt hnext hlt

/-! ## Where a verification begins -/

/-- A proof that begins. -/
lemma Invariant.begin {memberSeal : MemberSeal}
    (hblocks : memberSeal.blocks.toNat = divCeil memberSeal.length.toNat BLOCK_BYTES)
    (hboundary : content.length ≤ memberSeal.length.toNat ∧
      (content.length = memberSeal.length.toNat ∨ content.length % BLOCK_BYTES = 0)) :
    Invariant blake3 content rows
      ⟨memberSeal, content.length, 0, 0, blake3.new, manifestHasher blake3, [], false⟩ where
  blocks := hblocks
  current := rfl
  boundary := hboundary
  next_le := Nat.zero_le _
  inBlock := .inl rfl
  hashed := blake3.absorbed_new
  accepted := by
    refine ⟨[], rfl, fun i b hb => ?_, ?_⟩
    · rw [getElem?_nil] at hb
      cases hb
    · have hdomain := blake3.absorbed_new.update manifestDomain
      rw [nil_append] at hdomain
      rw [rowBytes, flatMap_nil, append_nil]
      exact hdomain
  pending := ⟨0, rfl⟩
  complete hcomplete := (nomatch hcomplete)

/-- A new verification is one of a prefix that ends with a block, or of the whole. -/
lemma Invariant.new {member : MemberRecord} {opened checked : Except Error Unit}
    (h : Verification.new blake3 member content.length opened checked = .ok v) :
    v.Invariant blake3 content rows ∧ v.position = 0 ∧ v.partialLength = 0 := by
  unfold Verification.new at h
  cases hseal : member.memberSeal with
  | none => simp [hseal] at h
  | some memberSeal =>
    cases opened with
    | error e =>
      simp only [hseal, bind, Except.bind, MemberSeal.validate] at h
      split_ifs at h
    | ok u =>
      cases checked with
      | error e =>
        simp only [hseal, bind, Except.bind, MemberSeal.validate] at h
        split_ifs at h
      | ok u =>
        simp only [hseal, bind, Except.bind, MemberSeal.validate] at h
        split_ifs at h with hvalid hprefix hlength hboundary
        cases h
        push Not at hvalid hboundary
        refine ⟨Invariant.begin hvalid.2.1 ⟨hboundary.1, ?_⟩, ?_, rfl⟩
        · by_cases heq : content.length = memberSeal.length.toNat
          · exact .inl heq
          · exact .inr (hboundary.2 heq)
        · show min (0 * BLOCK_BYTES) content.length + 0 = 0
          omega

/-- Another policy or allocation: the proof begins again. -/
lemma Invariant.resetProof (h : v.Invariant blake3 content rows) :
    (v.resetProof blake3).Invariant blake3 content rows := by
  have hbegin := @Invariant.begin _ blake3 content rows _ h.blocks h.boundary
  rw [← h.current] at hbegin
  exact hbegin

/-- The position is within the content, and at its end when all blocks are processed. -/
lemma Invariant.position_le (h : v.Invariant blake3 content rows) :
    v.position ≤ content.length ∧
      (v.nextBlock = v.memberSeal.blocks.toNat → v.position = content.length) := by
  have hboundary := h.boundary
  have hblocks := h.blocks
  have hcurrent := h.current
  rw [divCeil] at hblocks
  unfold position
  rcases h.inBlock with hzero | ⟨hlt, hstart, hle⟩
  · rw [hzero, hcurrent]
    simp only [BLOCK_BYTES] at hboundary hblocks ⊢
    omega
  · have hblock := h.block_le hstart
    refine ⟨?_, fun hdone => by omega⟩
    rw [hcurrent]
    omega

end Verification

/-! ## Pages one after the other -/

namespace Session

variable {η : Type} {blake3 : IncrementalHash UInt8 η Digest} {content : List UInt8}
  {rows : ProofRows} {memberSeal : MemberSeal} {other : Error → Prop}

/-- What is known after some events, where `other` are the errors of everything besides the
verification. -/
def Sound (blake3 : IncrementalHash UInt8 η Digest) (content : List UInt8) (rows : ProofRows)
    (memberSeal : MemberSeal) (other : Error → Prop) (s : Session η) : Prop :=
  match s.outcome with
  | .error e => ¬ WholePass blake3 rows memberSeal content ∨ other e
  | .ok done => s.verification.Invariant blake3 content rows ∧ s.verification.Unfinished ∧
      s.verification.memberSeal = memberSeal ∧ Tiles 0 s.reads s.verification.position ∧
      (done = true → s.verification.complete = true)

/-- What a page counts for the progress of a proof: the bytes and the blocks that are processed. -/
def measure (s : Session η) : ℕ := s.verification.position + s.verification.nextBlock

/-- A page of a session that did not fail. -/
lemma step_page {s : Session η} {done : Bool} (h : s.outcome = .ok done) {pass : Pass}
    {result : Except Error Bool} {p : Verification.Page η}
    (hpage : s.verification.page blake3 content rows pass = (result, p)) :
    s.step blake3 content rows (.page pass) = ⟨p.verification, result, s.reads ++ p.reads⟩ := by
  unfold Session.step
  rw [h]
  dsimp only
  rw [hpage]

/-- **One event keeps what is known.** -/
lemma Sound.step {s : Session η} (h : s.Sound blake3 content rows memberSeal other) {event : Event}
    (hother : ∀ pass, event = .page pass → ∀ stage e, pass.outcome stage = .error e → other e) :
    (s.step blake3 content rows event).Sound blake3 content rows memberSeal other := by
  obtain ⟨v, outcome, reads⟩ := s
  cases outcome with
  | error e => exact h
  | ok done =>
    obtain ⟨hinv, hopen, hseal, htiles, hdone⟩ := h
    cases event with
    | page pass =>
      have hpage := @Verification.page_spec _ _ _ _ pass _ hinv hopen
      rcases hresult : v.page blake3 content rows pass with ⟨result, p⟩
      rw [hresult] at hpage
      rw [@step_page _ blake3 content rows ⟨v, .ok done, reads⟩ done rfl pass _ _ hresult]
      cases result with
      | error e =>
        have hfail : Verification.Failed blake3 content rows pass v.memberSeal e := hpage
        refine Or.imp (fun hnot => ?_) (fun ⟨stage, hstage⟩ => hother pass rfl stage e hstage) hfail
        rw [← hseal]
        exact hnot
      | ok result =>
        obtain ⟨hinv', hopen', hseal', htiles', -, -, hcomplete, -⟩ := hpage
        exact ⟨hinv', hopen', hseal'.trans hseal, htiles.append htiles', hcomplete⟩
    | rebind =>
      refine ⟨hinv.resetProof, .inl rfl, hseal, ?_, fun hnot => (nomatch hnot)⟩
      show (0 : ℕ) = min (0 * BLOCK_BYTES) v.currentLength + 0
      omega

/-- What is known after some events is known after more. -/
lemma Sound.run {s : Session η} (h : s.Sound blake3 content rows memberSeal other)
    {events : List Event}
    (hother : ∀ pass, .page pass ∈ events → ∀ stage e, pass.outcome stage = .error e → other e) :
    (events.foldl (Session.step blake3 content rows) s).Sound blake3 content rows memberSeal
      other := by
  induction events generalizing s with
  | nil => exact h
  | cons event events ih =>
    refine ih (h.step fun pass heq => hother pass (heq ▸ mem_cons_self)) fun pass hpass => ?_
    exact hother pass (mem_cons_of_mem _ hpass)

end Session

/-- A pass in which nothing fails besides the verification. -/
def Pass.Quiet (pass : Pass) : Prop := ∀ stage, pass.outcome stage = .ok ()

/-- A pass with some bytes left to read and some time to read them. -/
def Pass.effective (pass : Pass) : Bool := !pass.expired 0 && decide (0 < pass.allowance)

namespace Session

variable {η : Type} {blake3 : IncrementalHash UInt8 η Digest} {content : List UInt8}
  {rows : ProofRows} {memberSeal : MemberSeal}

/-- A session that failed stays as it is. -/
lemma run_error {s : Session η} {e : Error} (h : s.outcome = .error e) (events : List Event) :
    events.foldl (Session.step blake3 content rows) s = s := by
  induction events with
  | nil => rfl
  | cons event events ih =>
    have hstep : s.step blake3 content rows event = s := by
      unfold Session.step
      rw [h]
    rw [foldl_cons, hstep]
    exact ih

/-- A session that reported completion reports it again. -/
lemma run_complete {s : Session η} {done : Bool} (h : s.outcome = .ok done)
    (hcomplete : s.verification.complete = true) {passes : List Pass}
    (hquiet : ∀ pass ∈ passes, pass.Quiet) (hdone : done = true ∨ passes ≠ []) :
    ((passes.map Event.page).foldl (Session.step blake3 content rows) s).outcome = .ok true := by
  induction passes generalizing s done with
  | nil =>
    rcases hdone with rfl | hne
    · exact h
    · exact absurd rfl hne
  | cons pass passes ih =>
    have hbegins := hquiet pass mem_cons_self .begins
    rw [map_cons, foldl_cons]
    have hpage : s.verification.page blake3 content rows pass =
        (.ok true, ⟨s.verification, 0, pass.progress, []⟩) := by
      unfold Verification.page
      rw [hbegins]
      exact if_pos hcomplete
    rw [step_page h hpage]
    exact ih rfl hcomplete (fun p hp => hquiet p (mem_cons_of_mem _ hp)) (.inl rfl)

/-- **Enough pages decide**: every effective page makes progress, fails, or completes the proof. -/
lemma run_progress {s : Session η} {done : Bool}
    (h : s.Sound blake3 content rows memberSeal fun _ => False) (hdone : s.outcome = .ok done)
    {passes : List Pass} (hquiet : ∀ pass ∈ passes, pass.Quiet) {s' : Session η}
    (hs' : s' = (passes.map Event.page).foldl (Session.step blake3 content rows) s) :
    (∃ e, s'.outcome = .error e) ∨ s'.outcome = .ok true ∨
      s.measure + (passes.filter Pass.effective).length ≤ s'.measure := by
  induction passes generalizing s done with
  | nil =>
    rw [hs']
    exact .inr (.inr le_rfl)
  | cons pass passes ih =>
    have hrest : ∀ p ∈ passes, p.Quiet := fun p hp => hquiet p (mem_cons_of_mem _ hp)
    have hsound := @Sound.step _ _ _ _ _ _ _ h (.page pass) fun p heq stage e hfail => by
      cases heq
      rw [hquiet pass mem_cons_self stage] at hfail
      cases hfail
    rw [map_cons, foldl_cons] at hs'
    obtain ⟨v, outcome, reads⟩ := s
    cases hdone
    obtain ⟨hinv, hopen, -⟩ := h
    have hpage := @Verification.page_spec _ _ _ _ pass _ hinv hopen
    rcases hresult : v.page blake3 content rows pass with ⟨result, p⟩
    rw [hresult] at hpage
    rw [@step_page _ blake3 content rows ⟨v, .ok done, reads⟩ done rfl pass _ _ hresult]
      at hsound hs'
    cases result with
    | error e =>
      rw [run_error rfl] at hs'
      exact .inl ⟨e, hs' ▸ rfl⟩
    | ok result =>
      cases result with
      | true =>
        have hcomplete := hpage.2.2.2.2.2.2.1 rfl
        rw [hs']
        exact .inr (.inl (run_complete rfl hcomplete hrest (.inl rfl)))
      | false =>
        obtain ⟨-, hle, hless⟩ := hpage.2.2.2.2.2.2.2 rfl
        refine (ih hsound rfl hrest hs').imp_right (Or.imp_right fun hmeasure => ?_)
        have hone : v.position + v.nextBlock + (if pass.effective then 1 else 0) ≤
            p.verification.position + p.verification.nextBlock := by
          split_ifs with heffective
          · rw [Pass.effective, Bool.and_eq_true, Bool.not_eq_true', decide_eq_true_iff]
              at heffective
            exact hless heffective.1 heffective.2
          · exact hle
        have hlength : ((pass :: passes).filter Pass.effective).length =
            (passes.filter Pass.effective).length + (if pass.effective then 1 else 0) := by
          rw [filter_cons]
          split_ifs <;> rfl
        rw [hlength]
        unfold measure at hmeasure ⊢
        dsimp only at hmeasure ⊢
        omega

/-- **A verification in pages is a whole pass.** Begin to verify what is left of a member, and cut
the work into pages in any way; begin again any number of times. Then:

* if a page reports completion, one pass over everything accepts the content;
* if a page fails, that pass does not accept it, or something besides the verification failed;
* otherwise the reads since the proof began follow each other from the first byte to the saved
  position, the saved hash is that of the part of the next block that was read, and the position
  of a complete proof is the end of the content;
* and from there, any pages of which enough can read something report completion exactly when the
  pass over everything accepts. -/
theorem pages_refine_whole (blake3 : IncrementalHash UInt8 η Digest) (rows : ProofRows)
    (content : List UInt8) (member : MemberRecord) (opened checked : Except Error Unit)
    (v : Verification η)
    (hv : Verification.new blake3 member content.length opened checked = .ok v)
    (events : List Event) (s : Session η)
    (hs : s = events.foldl (Session.step blake3 content rows) ⟨v, .ok false, []⟩) :
    (s.outcome = .ok true → WholePass blake3 rows v.memberSeal content) ∧
      (∀ e, s.outcome = .error e → ¬ WholePass blake3 rows v.memberSeal content ∨
        ∃ pass stage, .page pass ∈ events ∧ pass.outcome stage = .error e) ∧
      ∀ done, s.outcome = .ok done →
        Tiles 0 s.reads s.verification.position ∧
        blake3.Absorbed s.verification.partialHash
          ((content.drop (s.verification.nextBlock * BLOCK_BYTES)).take
            s.verification.partialLength) ∧
        (done = true → s.verification.position = content.length) ∧
        ∀ passes : List Pass, (∀ pass ∈ passes, pass.Quiet) →
          content.length + v.memberSeal.blocks.toNat < (passes.filter Pass.effective).length →
          (((passes.map Event.page).foldl (Session.step blake3 content rows) s).outcome =
            .ok true ↔ WholePass blake3 rows v.memberSeal content) := by
  obtain ⟨hinv, hzero, hpartial⟩ := @Verification.Invariant.new _ _ _ rows _ _ _ _ hv
  have hsound : s.Sound blake3 content rows v.memberSeal fun e =>
      ∃ pass stage, .page pass ∈ events ∧ pass.outcome stage = .error e := by
    have hstart : Sound blake3 content rows v.memberSeal (fun e =>
        ∃ pass stage, .page pass ∈ events ∧ pass.outcome stage = .error e) ⟨v, .ok false, []⟩ :=
      ⟨hinv, .inl hpartial, rfl, hzero.symm, fun hnot => (nomatch hnot)⟩
    rw [hs]
    exact hstart.run fun pass hpass stage e he => ⟨pass, stage, hpass, he⟩
  -- what a session that did not fail says of the whole pass
  have hcomplete : ∀ (s : Session η) (other : Error → Prop),
      s.Sound blake3 content rows v.memberSeal other → s.outcome = .ok true →
      s.verification.nextBlock = v.memberSeal.blocks.toNat ∧
        WholePass blake3 rows v.memberSeal content := by
    intro s other hsound hdone
    unfold Sound at hsound
    rw [hdone] at hsound
    obtain ⟨hinv, -, hseal, -, hcomplete⟩ := hsound
    rw [← hseal]
    exact hinv.complete (hcomplete rfl)
  refine ⟨fun hdone => (hcomplete s _ hsound hdone).2, fun e he => ?_, fun done hdone => ?_⟩
  · unfold Sound at hsound
    rw [he] at hsound
    exact hsound
  · have hok := hsound
    unfold Sound at hok
    rw [hdone] at hok
    obtain ⟨hinv', hopen', hseal', htiles', hcomplete'⟩ := hok
    refine ⟨htiles', hinv'.hashed, fun htrue => ?_, fun passes hquiet henough => ?_⟩
    · exact hinv'.position_le.2 (hinv'.complete (hcomplete' htrue)).1
    · have hquietly : s.Sound blake3 content rows v.memberSeal fun _ => False := by
        unfold Sound
        rw [hdone]
        exact ⟨hinv', hopen', hseal', htiles', hcomplete'⟩
      have hrun := @Sound.run _ _ _ _ _ _ _ hquietly (passes.map Event.page)
        fun pass hpass stage e he => by
        obtain ⟨p, hp, heq⟩ := List.mem_map.mp hpass
        cases heq
        rw [hquiet pass hp stage] at he
        cases he
      have hprogress := run_progress hquietly hdone hquiet rfl
      set t := (passes.map Event.page).foldl (Session.step blake3 content rows) s
      refine ⟨fun htrue => (hcomplete t _ hrun htrue).2, fun hwhole => ?_⟩
      rcases hprogress with ⟨e, he⟩ | htrue | hmeasure
      · unfold Sound at hrun
        rw [he] at hrun
        exact absurd hwhole (hrun.resolve_right id)
      · exact htrue
      · -- there is not that much to process
        unfold Sound at hrun
        cases hout : t.outcome with
        | error e =>
          rw [hout] at hrun
          exact absurd hwhole (hrun.resolve_right id)
        | ok done =>
          rw [hout] at hrun
          obtain ⟨hinv'', -, hseal'', -⟩ := hrun
          have hone := hinv''.position_le.1
          have htwo := hinv''.next_le
          rw [hseal''] at htwo
          unfold measure at hmeasure
          omega

/-- The digest of two bytes. -/
def sampleDigest : Digest :=
  ⟨#[133, 5, 46, 154, 171, 27, 103, 182, 98, 45, 148, 160, 132, 65, 176, 159, 213, 183, 172, 166, 30,
    227, 96, 65, 109, 112, 222, 93, 166, 125, 134, 202], rfl⟩

/-- The digest of the row of these two bytes. -/
def sampleManifest : Digest :=
  ⟨#[133, 192, 159, 79, 138, 7, 66, 49, 240, 218, 73, 151, 54, 239, 1, 191, 188, 101, 39, 113, 53, 50,
    94, 77, 11, 198, 121, 209, 120, 108, 36, 115], rfl⟩

/-- The hash of two inputs. -/
def sampleHash (input : List UInt8) : Digest :=
  if input = [104, 105] then sampleDigest
  else if input = manifestDomain ++ (Block.encode ⟨0, 2, sampleDigest⟩).flatten then sampleManifest
  else Vector.replicate 32 0

/-- A hash whose state is the input so far. -/
def sampleBlake3 : IncrementalHash UInt8 (List UInt8) Digest where
  new := []
  update := (· ++ ·)
  finalize := sampleHash
  hash := sampleHash
  finalize_foldl chunks := by
    have hfold : ∀ input : List UInt8, chunks.foldl (· ++ ·) input = input ++ chunks.flatten := by
      induction chunks with
      | nil => exact fun input => (append_nil input).symm
      | cons chunk chunks ih =>
        intro input
        rw [foldl_cons, ih, flatten_cons, append_assoc]
    rw [hfold, nil_append]

/-- A member of two bytes. -/
def sampleMember : MemberRecord where
  producerOpen := false
  removed := false
  memberSeal := some ⟨1, 2, 1, sampleManifest⟩
  logicalBytes := 2
  creditedLogicalBytes := 0
  pendingLength := none
  pendingManifest := none

/-- Its proof. -/
def sampleRows : ProofRows := FinMap.empty.insert 0 ⟨2, sampleDigest.toList⟩

/-- A verification of it. -/
def sampleStart : Verification (List UInt8) where
  memberSeal := ⟨1, 2, 1, sampleManifest⟩
  currentLength := 2
  nextBlock := 0
  partialLength := 0
  partialHash := []
  manifest := manifestDomain
  pending := []
  complete := false

/-- Two pages that read one byte each. -/
def samplePages : List Event := [.page { maxDeleteBytes := 1 }, .page { maxDeleteBytes := 1 }]

/-- `pages_refine_whole` for these pages. -/
theorem pages_refine_whole_sample :
    WholePass sampleBlake3 sampleRows ⟨1, 2, 1, sampleManifest⟩ [104, 105] := by
  have hnew : Verification.new sampleBlake3 sampleMember [104, 105].length (.ok ()) (.ok ()) =
      .ok sampleStart := by
    rfl
  have hdone : (samplePages.foldl (Session.step sampleBlake3 [104, 105] sampleRows)
      ⟨sampleStart, .ok false, []⟩).outcome = .ok true := by
    decide +kernel
  exact (pages_refine_whole sampleBlake3 sampleRows [104, 105] sampleMember (.ok ()) (.ok ())
    sampleStart hnew samplePages _ rfl).1 hdone

end Session

end Tgrep.Managed.Authentication
