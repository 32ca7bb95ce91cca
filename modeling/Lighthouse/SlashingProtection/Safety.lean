import Lighthouse.SlashingProtection.Guards

/-! Slashing protection over whole runs. The database is driven by the calls the validator
client makes: registration, the two `check_and_insert_*_signing_root` calls, the two prunes and
the interchange import. Each approval (`Ok(Valid)` or `Ok(SameData)`) and each imported record
is an event of the run; the safety property relates every approval to every event before it. -/
namespace Lighthouse.SlashingProtection
variable {κ : Type}

inductive Operation (κ : Type) where
  | registerValidators (pks : List κ)
  | updateValidatorStatus (pk : κ) (enabled : Bool)
  | checkAndInsertBlockSigningRoot (pk : κ) (slot : Nat) (signingRoot : SigningRoot)
  | checkAndInsertAttestationSigningRoot (pk : κ) (attSourceEpoch attTargetEpoch : Nat)
      (attSigningRoot : SigningRoot)
  | pruneAllSignedBlocks (pks : List κ) (newMinSlot : Nat)
  | pruneAllSignedAttestations (pks : List κ) (newMinTarget : Nat)
  | importInterchangeInfo (interchange : Interchange κ) (genesisValidatorsRoot : Nat)
deriving DecidableEq, Repr

inductive Provenance where
  | approved
  | imported
deriving DecidableEq, Repr

inductive Event (κ : Type) where
  | block (pk : κ) (b : SignedBlock) (p : Provenance)
  | attestation (pk : κ) (a : SignedAttestation) (p : Provenance)
deriving DecidableEq, Repr

/-- An interchange block as a signed message; a missing signing root is the null root. -/
def InterchangeBlock.toSignedBlock (b : InterchangeBlock) : SignedBlock :=
  ⟨b.slot, ⟨b.signingRoot.getD 0⟩⟩

def InterchangeAttestation.toSignedAttestation (a : InterchangeAttestation) : SignedAttestation :=
  ⟨a.sourceEpoch, a.targetEpoch, ⟨a.signingRoot.getD 0⟩⟩

/-- The messages of one interchange record. -/
def recordEvents (r : InterchangeData κ) : List (Event κ) :=
  r.signedBlocks.map (fun b => .block r.pubkey b.toSignedBlock .imported) ++
    r.signedAttestations.map fun a => .attestation r.pubkey a.toSignedAttestation .imported

/-- The relation the run must keep between an event and each later one: a later approval for
the same validator is neither a double vote nor surrounding nor surrounded, and no second
block at a slot. -/
def SafeAfter : Event κ → Event κ → Prop
  | .attestation pk₁ a₁ _, .attestation pk₂ a₂ .approved => pk₁ = pk₂ → ¬ Slashable a₁ a₂
  | .block pk₁ b₁ _, .block pk₂ b₂ .approved => pk₁ = pk₂ → ¬ DoubleProposal b₁ b₂
  | _, _ => True

def blocksOf [DecidableEq κ] (pk : κ) (evs : List (Event κ)) : List SignedBlock :=
  evs.filterMap fun
    | .block pk' b _ => if pk' = pk then some b else none
    | .attestation .. => none

def attestationsOf [DecidableEq κ] (pk : κ) (evs : List (Event κ)) : List SignedAttestation :=
  evs.filterMap fun
    | .attestation pk' a _ => if pk' = pk then some a else none
    | .block .. => none

section Run
variable [DecidableEq κ]

/-- One call on the database: its new state, and the approval or imported messages it adds
to the run. -/
def step (db : SlashingDatabase κ) : Operation κ → SlashingDatabase κ × List (Event κ)
  | .registerValidators pks => (registerValidators db pks, [])
  | .updateValidatorStatus pk enabled => ((updateValidatorStatus db pk enabled).1, [])
  | .checkAndInsertBlockSigningRoot pk slot r =>
    match checkAndInsertBlockSigningRoot db pk slot r with
    | (db', .ok _) => (db', [.block pk ⟨slot, r⟩ .approved])
    | (db', .error _) => (db', [])
  | .checkAndInsertAttestationSigningRoot pk s t r =>
    match checkAndInsertAttestationSigningRoot db pk s t r with
    | (db', .ok _) => (db', [.attestation pk ⟨s, t, r⟩ .approved])
    | (db', .error _) => (db', [])
  | .pruneAllSignedBlocks pks newMinSlot => ((pruneAllSignedBlocks db pks newMinSlot).1, [])
  | .pruneAllSignedAttestations pks newMinTarget =>
    ((pruneAllSignedAttestations db pks newMinTarget).1, [])
  | .importInterchangeInfo interchange gvr =>
    match importInterchangeInfo db interchange gvr with
    | (db', .ok _) => (db', interchange.data.flatMap recordEvents)
    | (db', .error _) => (db', [])

/-- The events of a run from the empty database. -/
def trace (ops : List (Operation κ)) : List (Event κ) :=
  (Trace.run step (SlashingDatabase.empty, []) ops).2

end Run

/-- The data a signing root stands for: in a run where this holds, two attestation calls with
equal non-null signing roots sign the same source and target, as they do when the root is
the hash of the `AttestationData`. -/
def SigningRootsBindData (ops : List (Operation κ)) : Prop :=
  ∀ pk₁ s₁ t₁ r₁ pk₂ s₂ t₂ r₂,
    Operation.checkAndInsertAttestationSigningRoot pk₁ s₁ t₁ r₁ ∈ ops →
    Operation.checkAndInsertAttestationSigningRoot pk₂ s₂ t₂ r₂ ∈ ops →
    r₁.eq r₂ = true → s₁ = s₂ ∧ t₁ = t₂

section Invariant
variable [DecidableEq κ]

@[simp] theorem blocksOf_append (pk : κ) (l l' : List (Event κ)) :
    blocksOf pk (l ++ l') = blocksOf pk l ++ blocksOf pk l' := by
  simp [blocksOf]

@[simp] theorem attestationsOf_append (pk : κ) (l l' : List (Event κ)) :
    attestationsOf pk (l ++ l') = attestationsOf pk l ++ attestationsOf pk l' := by
  simp [attestationsOf]

theorem mem_blocksOf {pk : κ} {evs : List (Event κ)} {b : SignedBlock} :
    b ∈ blocksOf pk evs ↔ ∃ p, Event.block pk b p ∈ evs := by
  simp only [blocksOf, List.mem_filterMap]
  constructor
  · rintro ⟨e, he, hb⟩
    cases e with
    | block pk' b' p =>
      by_cases hpk : pk' = pk
      · simp only [hpk, ↓reduceIte, Option.some.injEq] at hb
        subst hpk hb
        exact ⟨p, he⟩
      · simp [hpk] at hb
    | attestation => cases hb
  · rintro ⟨p, he⟩
    exact ⟨_, he, by simp⟩

theorem mem_attestationsOf {pk : κ} {evs : List (Event κ)} {a : SignedAttestation} :
    a ∈ attestationsOf pk evs ↔ ∃ p, Event.attestation pk a p ∈ evs := by
  simp only [attestationsOf, List.mem_filterMap]
  constructor
  · rintro ⟨e, he, ha⟩
    cases e with
    | attestation pk' a' p =>
      by_cases hpk : pk' = pk
      · simp only [hpk, ↓reduceIte, Option.some.injEq] at ha
        subst hpk ha
        exact ⟨p, he⟩
      · simp [hpk] at ha
    | block => cases ha
  · rintro ⟨p, he⟩
    exact ⟨_, he, by simp⟩

/-- An attestation row that came from one of the run's attestation calls. -/
def FromCheck (ops : List (Operation κ)) (a : SignedAttestation) : Prop :=
  ∃ pk, Operation.checkAndInsertAttestationSigningRoot pk a.sourceEpoch a.targetEpoch
    a.signingRoot ∈ ops

/-- The invariant of a run: for every validator, its two tables guard everything it signed
or imported so far. -/
structure Inv (ops : List (Operation κ)) (db : SlashingDatabase κ) (hist : List (Event κ)) :
    Prop where
  blocks : ∀ pk, BlockTable (db.signedBlocks pk) (blocksOf pk hist)
  attestations : ∀ pk,
    AttestationTable (FromCheck ops) (db.signedAttestations pk) (attestationsOf pk hist)

theorem Inv.empty (ops : List (Operation κ)) : Inv ops SlashingDatabase.empty [] :=
  ⟨fun _ => ⟨List.Pairwise.nil, by simp [blocksOf]⟩, fun _ =>
    ⟨List.Pairwise.nil, by simp [SlashingDatabase.empty], by simp [SlashingDatabase.empty],
      by simp [attestationsOf]⟩⟩

theorem Inv.of_tables_eq {ops : List (Operation κ)} {db db' : SlashingDatabase κ}
    {hist : List (Event κ)} (hi : Inv ops db hist) (hb : db'.signedBlocks = db.signedBlocks)
    (ha : db'.signedAttestations = db.signedAttestations) : Inv ops db' (hist ++ []) := by
  rw [List.append_nil]
  exact ⟨fun pk => hb ▸ hi.blocks pk, fun pk => ha ▸ hi.attestations pk⟩

/-- The frame rule: a write to the tables of `pk` with events about `pk` only keeps the
invariant of every other validator. -/
theorem Inv.update {ops : List (Operation κ)} {db db' : SlashingDatabase κ}
    {hist evs : List (Event κ)} (hi : Inv ops db hist) (pk : κ)
    (hbk : ∀ pk', pk' ≠ pk → db'.signedBlocks pk' = db.signedBlocks pk')
    (hat : ∀ pk', pk' ≠ pk → db'.signedAttestations pk' = db.signedAttestations pk')
    (hevs : ∀ pk', pk' ≠ pk → blocksOf pk' evs = [] ∧ attestationsOf pk' evs = [])
    (hb : BlockTable (db'.signedBlocks pk) (blocksOf pk (hist ++ evs)))
    (ha : AttestationTable (FromCheck ops) (db'.signedAttestations pk)
      (attestationsOf pk (hist ++ evs))) :
    Inv ops db' (hist ++ evs) := by
  refine ⟨fun pk' => ?_, fun pk' => ?_⟩
  · by_cases h : pk' = pk
    · exact h ▸ hb
    · rw [hbk pk' h, blocksOf_append, (hevs pk' h).1, List.append_nil]
      exact hi.blocks pk'
  · by_cases h : pk' = pk
    · exact h ▸ ha
    · rw [hat pk' h, attestationsOf_append, (hevs pk' h).2, List.append_nil]
      exact hi.attestations pk'

theorem Inv.setSignedBlocks {ops : List (Operation κ)} {db : SlashingDatabase κ}
    {hist : List (Event κ)} (hi : Inv ops db hist) {pk : κ} {rows : List SignedBlock}
    (hb : BlockTable rows (blocksOf pk hist)) : Inv ops (db.setSignedBlocks pk rows) hist := by
  have h : Inv ops (db.setSignedBlocks pk rows) (hist ++ []) :=
    hi.update pk (fun pk' h => by simp [h]) (fun _ _ => rfl)
      (fun _ _ => by simp [blocksOf, attestationsOf]) (by simpa using hb)
      (by simpa using hi.attestations pk)
  simpa using h

theorem Inv.setSignedAttestations {ops : List (Operation κ)} {db : SlashingDatabase κ}
    {hist : List (Event κ)} (hi : Inv ops db hist) {pk : κ} {rows : List SignedAttestation}
    (ha : AttestationTable (FromCheck ops) rows (attestationsOf pk hist)) :
    Inv ops (db.setSignedAttestations pk rows) hist := by
  have h : Inv ops (db.setSignedAttestations pk rows) (hist ++ []) :=
    hi.update pk (fun _ _ => rfl) (fun pk' h => by simp [h])
      (fun _ _ => by simp [blocksOf, attestationsOf]) (by simpa using hi.blocks pk)
      (by simpa using ha)
  simpa using h

/-- An approved attestation keeps the invariant and is safe after every earlier event. -/
theorem Inv.checkAttestation {ops : List (Operation κ)} {db : SlashingDatabase κ}
    {hist : List (Event κ)} (hroots : SigningRootsBindData ops) (hi : Inv ops db hist)
    {pk : κ} {s t : Nat} {r : SigningRoot}
    (hop : Operation.checkAndInsertAttestationSigningRoot pk s t r ∈ ops) {db' : SlashingDatabase κ}
    {res : Except (NotSafe κ) Safe}
    (hres : checkAndInsertAttestationSigningRoot db pk s t r = (db', res)) :
    (res.isOk = false ∧ db' = db) ∨ (res.isOk = true ∧
      Inv ops db' (hist ++ [.attestation pk ⟨s, t, r⟩ .approved]) ∧
      ∀ e ∈ hist, SafeAfter e (.attestation pk ⟨s, t, r⟩ .approved)) := by
  rcases commitOrRollback_eq hres with ⟨safe, htxn, rfl⟩ | ⟨rfl, e, rfl⟩
  · refine .inr ⟨rfl, ?_⟩
    have hbound : FromCheck ops ⟨s, t, r⟩ := ⟨pk, hop⟩
    have hbind : ∀ x y, FromCheck ops x → FromCheck ops y →
        x.signingRoot.eq y.signingRoot = true →
        x.sourceEpoch = y.sourceEpoch ∧ x.targetEpoch = y.targetEpoch :=
      fun x y ⟨_, hx⟩ ⟨_, hy⟩ hxy => hroots _ _ _ _ _ _ _ _ hx hy hxy
    -- The new attestation's table, and its safety against the attestations of `pk` so far.
    have key : ∃ rows, (db' = db ∨ db' = db.setSignedAttestations pk rows) ∧
        db'.signedAttestations pk = rows ∧
        AttestationTable (FromCheck ops) rows (attestationsOf pk hist ++ [⟨s, t, r⟩]) ∧
        ∀ h ∈ attestationsOf pk hist, ¬ Slashable h ⟨s, t, r⟩ := by
      rcases checkAndInsertAttestationSigningRootTxn_eq_ok htxn with
        ⟨rfl, d, hd, hdt, hdr⟩ | ⟨hadm, rfl⟩
      · exact ⟨_, .inl rfl, rfl, (hi.attestations pk).sameData hbind hd hdt hdr hbound⟩
      · exact ⟨_, .inr rfl, by simp, (hi.attestations pk).insert hadm (fun _ => hbound)⟩
    obtain ⟨rows, hdb, hrows, htable, hsafe⟩ := key
    have hframe : ∀ pk', pk' ≠ pk → db'.signedAttestations pk' = db.signedAttestations pk' := by
      intro pk' h; rcases hdb with rfl | rfl <;> simp [h]
    have hblocks : db'.signedBlocks = db.signedBlocks := by rcases hdb with rfl | rfl <;> rfl
    refine ⟨hi.update pk (fun pk' _ => by rw [hblocks]) hframe
      (fun pk' h => by simp [blocksOf, attestationsOf, Ne.symm h])
      (by simpa [hblocks, blocksOf] using hi.blocks pk)
      (by simpa [hrows, attestationsOf] using htable), ?_⟩
    intro e he
    cases e with
    | block => trivial
    | attestation pk₁ a₁ p =>
      rintro rfl
      exact hsafe a₁ (mem_attestationsOf.mpr ⟨p, he⟩)
  · exact .inl ⟨rfl, rfl⟩

/-- An approved block keeps the invariant and is safe after every earlier event. -/
theorem Inv.checkBlock {ops : List (Operation κ)} {db : SlashingDatabase κ}
    {hist : List (Event κ)} (hi : Inv ops db hist) {pk : κ} {slot : Nat} {r : SigningRoot}
    {db' : SlashingDatabase κ} {res : Except (NotSafe κ) Safe}
    (hres : checkAndInsertBlockSigningRoot db pk slot r = (db', res)) :
    (res.isOk = false ∧ db' = db) ∨ (res.isOk = true ∧
      Inv ops db' (hist ++ [.block pk ⟨slot, r⟩ .approved]) ∧
      ∀ e ∈ hist, SafeAfter e (.block pk ⟨slot, r⟩ .approved)) := by
  rcases commitOrRollback_eq hres with ⟨safe, htxn, rfl⟩ | ⟨rfl, e, rfl⟩
  · refine .inr ⟨rfl, ?_⟩
    have key : ∃ rows, (db' = db ∨ db' = db.setSignedBlocks pk rows) ∧
        db'.signedBlocks pk = rows ∧ BlockTable rows (blocksOf pk hist ++ [⟨slot, r⟩]) ∧
        ∀ h ∈ blocksOf pk hist, ¬ DoubleProposal h ⟨slot, r⟩ := by
      rcases checkAndInsertBlockSigningRootTxn_eq_ok htxn with
        ⟨rfl, d, hd, hds, hdr⟩ | ⟨hadm, rfl⟩
      · exact ⟨_, .inl rfl, rfl, (hi.blocks pk).sameData hd hds hdr⟩
      · exact ⟨_, .inr rfl, by simp, (hi.blocks pk).insert hadm⟩
    obtain ⟨rows, hdb, hrows, htable, hsafe⟩ := key
    have hframe : ∀ pk', pk' ≠ pk → db'.signedBlocks pk' = db.signedBlocks pk' := by
      intro pk' h; rcases hdb with rfl | rfl <;> simp [h]
    have hatts : db'.signedAttestations = db.signedAttestations := by
      rcases hdb with rfl | rfl <;> rfl
    refine ⟨hi.update pk hframe (fun pk' _ => by rw [hatts])
      (fun pk' h => by simp [blocksOf, attestationsOf, Ne.symm h])
      (by simpa [hrows, blocksOf] using htable)
      (by simpa [hatts, attestationsOf] using hi.attestations pk), ?_⟩
    intro e he
    cases e with
    | attestation => trivial
    | block pk₁ b₁ p =>
      rintro rfl
      exact hsafe b₁ (mem_blocksOf.mpr ⟨p, he⟩)
  · exact .inl ⟨rfl, rfl⟩

theorem Inv.pruneAllSignedBlocks {ops : List (Operation κ)} {db : SlashingDatabase κ}
    {hist : List (Event κ)} (hi : Inv ops db hist) (pks : List κ) (m : Nat) :
    Inv ops (pruneAllSignedBlocks db pks m).1 hist := by
  unfold SlashingProtection.pruneAllSignedBlocks
  cases hfold : pks.foldlM (fun txn pk => pruneSignedBlocks pk m txn) db with
  | error e => exact hi
  | ok txn =>
    refine Trace.foldlM_except_induction (fun t => Inv ops t hist) _ pks db txn ?_ hi hfold
    intro t pk t' _ ht h
    rw [pruneSignedBlocks_eq_ok h]
    exact ht.setSignedBlocks ((ht.blocks pk).prune m)

theorem Inv.pruneAllSignedAttestations {ops : List (Operation κ)} {db : SlashingDatabase κ}
    {hist : List (Event κ)} (hi : Inv ops db hist) (pks : List κ) (m : Nat) :
    Inv ops (pruneAllSignedAttestations db pks m).1 hist := by
  unfold SlashingProtection.pruneAllSignedAttestations
  cases hfold : pks.foldlM (fun txn pk => pruneSignedAttestations pk m txn) db with
  | error e => exact hi
  | ok txn =>
    refine Trace.foldlM_except_induction (fun t => Inv ops t hist) _ pks db txn ?_ hi hfold
    intro t pk t' _ ht h
    rw [pruneSignedAttestations_eq_ok h]
    exact ht.setSignedAttestations ((ht.attestations pk).prune m)

theorem le_maxOr_right (o : Option Nat) (y : Nat) : y ≤ maxOr o y := by
  cases o with
  | none => exact Nat.le_refl y
  | some x => exact Nat.le_max_right x y

theorem le_maxOr_of_mem {α : Type} {rows : List α} {f : α → Nat} {d : α} (hd : d ∈ rows)
    (y : Nat) : f d ≤ maxOr (rows.map f).max? y := by
  cases h : (rows.map f).max? with
  | none => simp only [List.max?_eq_none_iff, List.map_eq_nil_iff] at h; subst h; cases hd
  | some M =>
    have := le_max? h hd
    simp only [maxOr]
    omega

/-- The block half of an import keeps the block table of `pk`, now guarding the imported
blocks too, and touches nothing else. -/
theorem importBlocks_table {txn txn₁ : SlashingDatabase κ} {pk : κ} {prev : ValidatorSummary}
    {blocks : List InterchangeBlock} {hist : List SignedBlock}
    (ht : BlockTable (txn.signedBlocks pk) hist)
    (hprev : prev.maxBlockSlot = ((txn.signedBlocks pk).map (·.slot)).max?)
    (h : importBlocks pk prev blocks txn = (txn₁, .ok ())) :
    txn₁.signedAttestations = txn.signedAttestations ∧
      (∀ pk', pk' ≠ pk → txn₁.signedBlocks pk' = txn.signedBlocks pk') ∧
      BlockTable (txn₁.signedBlocks pk) (hist ++ blocks.map InterchangeBlock.toSignedBlock) := by
  rcases importBlocks_eq_ok h with ⟨rfl, rfl⟩ | ⟨m, hm, rfl⟩
  · exact ⟨rfl, fun _ _ => rfl, by simpa using ht⟩
  · refine ⟨rfl, fun pk' h => by simp [h], ?_⟩
    simp only [SlashingDatabase.setSignedBlocks_signedBlocks, ↓reduceIte]
    refine ht.replace (fun d hd => hprev ▸ le_maxOr_of_mem hd _) (fun b hb => ?_)
    obtain ⟨b', hb', rfl⟩ := List.mem_map.mp hb
    exact Nat.le_trans (le_max? hm hb') (le_maxOr_right _ _)

theorem importAttestations_table {txn txn₁ : SlashingDatabase κ} {pk : κ}
    {prev : ValidatorSummary} {atts : List InterchangeAttestation}
    {bound : SignedAttestation → Prop} {hist : List SignedAttestation}
    (ht : AttestationTable bound (txn.signedAttestations pk) hist)
    (hs : prev.maxAttestationSource = ((txn.signedAttestations pk).map (·.sourceEpoch)).max?)
    (htg : prev.maxAttestationTarget = ((txn.signedAttestations pk).map (·.targetEpoch)).max?)
    (h : importAttestations pk prev atts txn = (txn₁, .ok ())) :
    txn₁.signedBlocks = txn.signedBlocks ∧
      (∀ pk', pk' ≠ pk → txn₁.signedAttestations pk' = txn.signedAttestations pk') ∧
      AttestationTable bound (txn₁.signedAttestations pk)
        (hist ++ atts.map InterchangeAttestation.toSignedAttestation) := by
  rcases importAttestations_eq_ok h with ⟨rfl, rfl⟩ | ⟨S, T, hS, hT, rfl⟩
  · exact ⟨rfl, fun _ _ => rfl, by simpa using ht⟩
  · refine ⟨rfl, fun pk' h => by simp [h], ?_⟩
    simp only [SlashingDatabase.setSignedAttestations_signedAttestations, ↓reduceIte]
    refine ht.replace (fun d hd => ⟨hs ▸ le_maxOr_of_mem hd _, htg ▸ le_maxOr_of_mem hd _⟩)
      (fun a ha => ?_)
    obtain ⟨a', ha', rfl⟩ := List.mem_map.mp ha
    exact ⟨Nat.le_trans (le_max? hS ha') (le_maxOr_right _ _),
      Nat.le_trans (le_max? hT ha') (le_maxOr_right _ _)⟩

theorem blocksOf_recordEvents (pk : κ) (r : InterchangeData κ) :
    blocksOf pk (recordEvents r) =
      if r.pubkey = pk then r.signedBlocks.map InterchangeBlock.toSignedBlock else [] := by
  by_cases h : r.pubkey = pk <;>
    simp [blocksOf, recordEvents, h, List.filterMap_map]

theorem attestationsOf_recordEvents (pk : κ) (r : InterchangeData κ) :
    attestationsOf pk (recordEvents r) =
      if r.pubkey = pk then r.signedAttestations.map InterchangeAttestation.toSignedAttestation
      else [] := by
  by_cases h : r.pubkey = pk <;>
    simp [attestationsOf, recordEvents, h, List.filterMap_map]

/-- One imported record keeps the invariant, the record's messages now among the guarded. -/
theorem Inv.importRecord {ops : List (Operation κ)} {db txn' : SlashingDatabase κ}
    {hist : List (Event κ)} (hi : Inv ops db hist) {record : InterchangeData κ}
    {summary : ValidatorSummary} (h : importInterchangeRecord record db = (txn', .ok summary)) :
    Inv ops txn' (hist ++ recordEvents record) := by
  obtain ⟨prev, txn₁, hprev, hblk, hatt⟩ := importInterchangeRecord_eq_ok h
  obtain ⟨hmaxB, hmaxS, hmaxT⟩ := validatorSummary_eq_ok hprev
  simp only [registerValidatorsInTxn_signedBlocks, registerValidatorsInTxn_signedAttestations]
    at hmaxB hmaxS hmaxT
  have hreg := hi.of_tables_eq (registerValidatorsInTxn_signedBlocks [record.pubkey] db)
    (registerValidatorsInTxn_signedAttestations [record.pubkey] db)
  rw [List.append_nil] at hreg
  obtain ⟨hA₁, hB₁, htB⟩ := importBlocks_table (hreg.blocks record.pubkey)
    (by simpa using hmaxB) hblk
  obtain ⟨hB', hA', htA⟩ := importAttestations_table
    (by rw [hA₁]; exact hreg.attestations record.pubkey)
    (by rw [hA₁]; simpa using hmaxS) (by rw [hA₁]; simpa using hmaxT) hatt
  refine hi.update record.pubkey (fun pk' h => ?_) (fun pk' h => ?_) (fun pk' h => ?_) ?_ ?_
  · rw [hB', hB₁ pk' h]; simp
  · rw [hA' pk' h, hA₁]; simp
  · simp [blocksOf_recordEvents, attestationsOf_recordEvents, Ne.symm h]
  · rw [hB']
    simpa [blocksOf_recordEvents] using htB
  · simpa [attestationsOf_recordEvents] using htA

theorem Inv.importRecords {ops : List (Operation κ)} :
    ∀ (data : List (InterchangeData κ)) {db txn' : SlashingDatabase κ} {hist : List (Event κ)}
      {outcomes : List (InterchangeImportOutcome κ)}, Inv ops db hist →
      importRecords data db = (txn', outcomes, true) →
      Inv ops txn' (hist ++ data.flatMap recordEvents)
  | [], _, _, _, _, hi, h => by
    simp only [SlashingProtection.importRecords, Prod.mk.injEq] at h
    obtain ⟨rfl, -⟩ := h
    simpa using hi
  | record :: rest, _, _, _, _, hi, h => by
    obtain ⟨txn₁, summary, outcomes', hrec, hrest⟩ := importRecords_cons_commit h
    have := Inv.importRecords rest (hi.importRecord hrec) hrest
    simpa [List.append_assoc] using this

theorem updateValidatorStatus_tables (db : SlashingDatabase κ) (pk : κ) (status : Bool) :
    (updateValidatorStatus db pk status).1.signedBlocks = db.signedBlocks ∧
      (updateValidatorStatus db pk status).1.signedAttestations = db.signedAttestations := by
  unfold updateValidatorStatus
  split <;> exact ⟨rfl, rfl⟩

/-- The step lemma: every call keeps the invariant, and what it approves is safe after every
earlier event. -/
theorem Inv.step {ops : List (Operation κ)} {db : SlashingDatabase κ} {hist : List (Event κ)}
    (hroots : SigningRootsBindData ops) (hi : Inv ops db hist) {op : Operation κ}
    (hop : op ∈ ops) :
    Inv ops (step db op).1 (hist ++ (step db op).2) ∧ (step db op).2.Pairwise SafeAfter ∧
      ∀ e ∈ hist, ∀ e' ∈ (step db op).2, SafeAfter e e' := by
  cases op with
  | registerValidators pks =>
    exact ⟨hi.of_tables_eq (registerValidatorsInTxn_signedBlocks pks db)
      (registerValidatorsInTxn_signedAttestations pks db), List.Pairwise.nil, by simp [SlashingProtection.step]⟩
  | updateValidatorStatus pk status =>
    obtain ⟨hb, ha⟩ := updateValidatorStatus_tables db pk status
    exact ⟨hi.of_tables_eq hb ha, List.Pairwise.nil, by simp [SlashingProtection.step]⟩
  | checkAndInsertBlockSigningRoot pk slot r =>
    simp only [SlashingProtection.step]
    rcases hres : checkAndInsertBlockSigningRoot db pk slot r with ⟨db', res⟩
    rcases hi.checkBlock hres with ⟨hres', rfl⟩ | ⟨hres', hinv, hsafe⟩
    · cases res with
      | ok => cases hres'
      | error => exact ⟨by simpa using hi, List.Pairwise.nil, by simp⟩
    · cases res with
      | ok => exact ⟨hinv, List.pairwise_singleton _ _, fun e he e' he' => by
          rw [List.mem_singleton.mp he']; exact hsafe e he⟩
      | error => cases hres'
  | checkAndInsertAttestationSigningRoot pk s t r =>
    simp only [SlashingProtection.step]
    rcases hres : checkAndInsertAttestationSigningRoot db pk s t r with ⟨db', res⟩
    rcases hi.checkAttestation hroots hop hres with ⟨hres', rfl⟩ | ⟨hres', hinv, hsafe⟩
    · cases res with
      | ok => cases hres'
      | error => exact ⟨by simpa using hi, List.Pairwise.nil, by simp⟩
    · cases res with
      | ok => exact ⟨hinv, List.pairwise_singleton _ _, fun e he e' he' => by
          rw [List.mem_singleton.mp he']; exact hsafe e he⟩
      | error => cases hres'
  | pruneAllSignedBlocks pks m =>
    exact ⟨by simpa [SlashingProtection.step] using hi.pruneAllSignedBlocks pks m,
      List.Pairwise.nil, by simp [SlashingProtection.step]⟩
  | pruneAllSignedAttestations pks m =>
    exact ⟨by simpa [SlashingProtection.step] using hi.pruneAllSignedAttestations pks m,
      List.Pairwise.nil, by simp [SlashingProtection.step]⟩
  | importInterchangeInfo interchange gvr =>
    simp only [SlashingProtection.step]
    rcases hres : importInterchangeInfo db interchange gvr with ⟨db', res⟩
    cases res with
    | error =>
      have hdb : db' = db := importInterchangeInfo_eq_error hres
      subst hdb
      exact ⟨by simpa using hi, List.Pairwise.nil, by simp⟩
    | ok outcomes =>
      -- Imported messages are never approvals, so nothing is required after them.
      have himported : ∀ e e' : Event κ, e' ∈ interchange.data.flatMap recordEvents →
          SafeAfter e e' := by
        intro e e' he'
        obtain ⟨r, -, he'⟩ := List.mem_flatMap.mp he'
        simp only [recordEvents, List.mem_append, List.mem_map] at he'
        rcases he' with ⟨b, -, rfl⟩ | ⟨a, -, rfl⟩ <;> cases e <;> trivial
      exact ⟨hi.importRecords interchange.data (importInterchangeInfo_eq_ok hres),
        List.pairwise_iff_forall_sublist.mpr fun hsub =>
          himported _ _ (hsub.subset (List.mem_cons_of_mem _ List.mem_cons_self)),
        fun e _ e' he' => himported e e' he'⟩

/-- Slashing protection over a whole run from the empty database: every approved attestation
or block is safe after every message approved or imported before it, provided equal signing
roots stand for equal attestation data. -/
theorem trace_safe_of_roots_bind_data (ops : List (Operation κ))
    (hroots : SigningRootsBindData ops) : (trace ops).Pairwise SafeAfter :=
  Trace.run_pairwise (Inv ops) SafeAfter ops (fun _ _ _ hop hi => (hi.step hroots hop).1)
    (fun _ _ _ hop hi => (hi.step hroots hop).2) _ _ (Inv.empty ops) List.Pairwise.nil

end Invariant

/-- Without the binding of signing roots to data, `SameData` approves an attestation that
surrounds an earlier one: the database compares only the signing root at the target. -/
theorem sameData_approves_surrounding_vote :
    ¬ (trace [.registerValidators [0], .checkAndInsertAttestationSigningRoot 0 2 5 ⟨2⟩,
      .checkAndInsertAttestationSigningRoot 0 3 10 ⟨1⟩,
      .checkAndInsertAttestationSigningRoot (0 : Nat) 1 10 ⟨1⟩]).Pairwise SafeAfter := by
  have htrace : trace [.registerValidators [0], .checkAndInsertAttestationSigningRoot 0 2 5 ⟨2⟩,
      .checkAndInsertAttestationSigningRoot 0 3 10 ⟨1⟩,
      .checkAndInsertAttestationSigningRoot (0 : Nat) 1 10 ⟨1⟩] =
      [.attestation 0 ⟨2, 5, ⟨2⟩⟩ .approved, .attestation 0 ⟨3, 10, ⟨1⟩⟩ .approved,
        .attestation 0 ⟨1, 10, ⟨1⟩⟩ .approved] := by decide
  rw [htrace]
  intro h
  -- The first vote (2, 5) is surrounded by the third, (1, 10).
  have h13 := List.rel_of_pairwise_cons h (List.mem_cons_of_mem _ List.mem_cons_self)
  exact h13 rfl (.inr (.inr ⟨by decide, by decide⟩))

theorem trace_safe_of_roots_bind_data_resign :
    SigningRootsBindData [.registerValidators [0], .checkAndInsertAttestationSigningRoot 0 2 5 ⟨2⟩,
      .checkAndInsertAttestationSigningRoot 0 3 10 ⟨1⟩,
      .checkAndInsertAttestationSigningRoot (0 : Nat) 3 10 ⟨1⟩] ∧
    (trace [.registerValidators [0], .checkAndInsertAttestationSigningRoot 0 2 5 ⟨2⟩,
      .checkAndInsertAttestationSigningRoot 0 3 10 ⟨1⟩,
      .checkAndInsertAttestationSigningRoot (0 : Nat) 3 10 ⟨1⟩]).Pairwise SafeAfter := by
  have hroots : SigningRootsBindData [.registerValidators [0],
      .checkAndInsertAttestationSigningRoot 0 2 5 ⟨2⟩,
      .checkAndInsertAttestationSigningRoot 0 3 10 ⟨1⟩,
      .checkAndInsertAttestationSigningRoot (0 : Nat) 3 10 ⟨1⟩] := by
    intro pk₁ s₁ t₁ r₁ pk₂ s₂ t₂ r₂ h₁ h₂ hr
    simp only [List.mem_cons, reduceCtorEq, Operation.checkAndInsertAttestationSigningRoot.injEq,
      List.not_mem_nil, or_false, false_or, or_self] at h₁ h₂
    rcases h₁ with ⟨-, rfl, rfl, rfl⟩ | ⟨-, rfl, rfl, rfl⟩ <;>
      rcases h₂ with ⟨-, rfl, rfl, rfl⟩ | ⟨-, rfl, rfl, rfl⟩ <;>
      simp_all [SigningRoot.eq, SigningRoot.isNull]
  exact ⟨hroots, trace_safe_of_roots_bind_data _ hroots⟩

end Lighthouse.SlashingProtection
