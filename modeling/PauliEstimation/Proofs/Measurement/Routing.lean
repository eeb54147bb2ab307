import PauliEstimation.Proofs.Measurement.Delivery
import PauliEstimation.Proofs.Measurement.History

namespace PauliEstimation

variable {R σ κ : Type}

/-- The rows that a list of results holds under the joint key at a position. -/
def rowsAt (results : List (PointResult R)) (i : Nat) : List (List Bool) :=
  match results[i]?.bind fun result => result.measurements.get? BasisChange.key with
  | some bits => bits.rows
  | none => []

/-- The batches that results hold for the pending specification `k`: the rows of its unflipped
point, and with symmetrization the inverted rows of the flipped point that comes next. -/
def batchesAt (symmetrize : Bool) (pending : List Nat) (results : List (PointResult R)) (k : Nat) :
    List (List (List Bool)) :=
  match pending.idxOf? k with
  | none => []
  | some i =>
    if symmetrize then [rowsAt results (2 * i), (rowsAt results (2 * i + 1)).map (List.map not)]
    else [rowsAt results i]

/-- The batches a call delivers for the specification `k`. -/
def Call.batchesOf (symmetrize : Bool) (k : Nat) (call : Call R) : List (List (List Bool)) :=
  match call.answer with
  | .ok results => batchesAt symmetrize call.plan.pending results k
  | .error _ => []

theorem Call.batchesOf_eq_nil {call : Call R} {symmetrize : Bool} {k : Nat}
    (h : k ∉ call.plan.pending) : call.batchesOf symmetrize k = [] := by
  have hidx : call.plan.pending.idxOf? k = none := List.idxOf?_eq_none_iff.mpr h
  unfold Call.batchesOf batchesAt
  split
  next => rw [hidx]
  next => rfl

/-- Results with equally many rows are batches of that size, one for each point of a specification. -/
theorem Call.map_length_batchesOf {call : Call R} {symmetrize : Bool} {k rows : Nat}
    {results : List (PointResult R)} (hk : k ∈ call.plan.pending) (ha : call.answer = .ok results)
    (hlen : results.length = call.plan.pending.length * if symmetrize then 2 else 1)
    (hrows : ∀ result ∈ results, ∃ bits, result.measurements.get? BasisChange.key = some bits ∧
      bits.rowCount = rows) :
    (call.batchesOf symmetrize k).map List.length =
      List.replicate (if symmetrize then 2 else 1) rows := by
  have hat : ∀ j, j < results.length → (rowsAt results j).length = rows := by
    intro j hj
    obtain ⟨bits, hb, hcount⟩ := hrows results[j] (List.getElem_mem hj)
    simp [rowsAt, List.getElem?_eq_getElem hj, hb, ← hcount, BitMatrix.rowCount]
  obtain ⟨i, hi⟩ := Option.isSome_iff_exists.mp (List.isSome_idxOf?.mpr hk)
  obtain ⟨hlt, _⟩ := List.idxOf?_eq_some_iff.mp hi
  unfold Call.batchesOf batchesAt
  rw [ha, hi]
  cases symmetrize with
  | false =>
    rw [if_neg (by decide), Nat.mul_one] at hlen
    simp [hat i (by omega)]
  | true =>
    rw [if_pos rfl] at hlen
    simp [hat (2 * i) (by omega), hat (2 * i + 1) (by omega)]

theorem zipWith_xor_replicate (row : List Bool) (flip : Bool) :
    List.zipWith xor row (List.replicate row.length flip) = row.map (xor · flip) := by
  induction row with
  | nil => rfl
  | cons b row ih => rw [List.length_cons, List.replicate_succ, List.zipWith_cons_cons, ih,
      List.map_cons]

theorem Variant.reading_replicate {index : Nat} {spec : Spec R} {qubitCount : Nat} {flip : Bool}
    {result : PointResult R} {bits : BitMatrix}
    (hb : result.measurements.get? BasisChange.key = some bits) (hw : qubitCount = bits.width) :
    Variant.reading ⟨index, spec, List.replicate qubitCount flip⟩ result =
      bits.rows.map (List.map (xor · flip)) := by
  unfold Variant.reading
  rw [hb]
  apply List.map_congr_left
  intro row hr
  rw [hw, ← bits.length_of_mem row hr, zipWith_xor_replicate]

namespace Session

theorem batchesFor_append (k : Nat) (xs ys : List (Variant R × PointResult R)) :
    batchesFor k (xs ++ ys) = batchesFor k xs ++ batchesFor k ys :=
  List.flatMap_append

/-- A block of variants reads the rows of its results, unflipped and then flipped. -/
theorem batchesFor_ofSpec {k l qubitCount : Nat} {symmetrize : Bool} {spec : Spec R}
    {results : List (PointResult R)} (hlen : results.length = if symmetrize then 2 else 1)
    (hw : ∀ result ∈ results, ∃ bits, result.measurements.get? BasisChange.key = some bits ∧
      qubitCount = bits.width) :
    batchesFor k ((Variant.ofSpec qubitCount symmetrize l spec).zip results) =
      if l = k then batchesAt symmetrize [k] results k else [] := by
  cases symmetrize with
  | false =>
    obtain ⟨r, rfl⟩ := List.length_eq_one_iff.mp hlen
    obtain ⟨bits, hb, hbw⟩ := hw r (by simp)
    by_cases hl : l = k
    · simp [batchesFor, Variant.ofSpec, Variant.flipChoices, batchesAt, rowsAt, hl, hb,
        Variant.reading_replicate hb hbw]
    · simp [batchesFor, Variant.ofSpec, Variant.flipChoices, hl]
  | true =>
    obtain ⟨r, r', rfl⟩ := List.length_eq_two.mp hlen
    obtain ⟨bits, hb, hbw⟩ := hw r (by simp)
    obtain ⟨bits', hb', hbw'⟩ := hw r' (by simp)
    by_cases hl : l = k
    · simp [batchesFor, Variant.ofSpec, Variant.flipChoices, batchesAt, rowsAt, hl, hb, hb',
        Variant.reading_replicate hb hbw, Variant.reading_replicate hb' hbw']
    · simp [batchesFor, Variant.ofSpec, Variant.flipChoices, hl]

theorem batchesAt_cons_self {symmetrize : Bool} {k : Nat} {rest : List Nat}
    {results : List (PointResult R)} :
    batchesAt symmetrize (k :: rest) results k =
      batchesAt symmetrize [k] (results.take (if symmetrize then 2 else 1)) k := by
  cases symmetrize with
  | false => simp [batchesAt, rowsAt, List.idxOf?_cons]
  | true => simp [batchesAt, rowsAt, List.idxOf?_cons]

theorem batchesAt_cons_of_ne {symmetrize : Bool} {k l : Nat} {rest : List Nat}
    {results : List (PointResult R)} (h : l ≠ k) :
    batchesAt symmetrize (l :: rest) results k =
      batchesAt symmetrize rest (results.drop (if symmetrize then 2 else 1)) k := by
  unfold batchesAt
  rw [List.idxOf?_cons, if_neg (by simpa using h)]
  cases rest.idxOf? k with
  | none => rfl
  | some i =>
    cases symmetrize with
    | false => simp [rowsAt]
    | true =>
      have h₀ : 2 + 2 * i = 2 * (i + 1) := by omega
      have h₁ : 2 + (2 * i + 1) = 2 * (i + 1) + 1 := by omega
      simp [rowsAt, List.getElem?_drop, h₀, h₁]

/-- The position of a specification among the pending ones is that of its points and results. -/
theorem batchesFor_eq_batchesAt {k qubitCount : Nat} {symmetrize : Bool} {specs : List (Spec R)}
    {pending : List Nat} {blocks : List (List (Variant R))} {results : List (PointResult R)}
    (hb : List.Forall₂ (fun k block => ∃ spec, specs[k]? = some spec ∧
      block = Variant.ofSpec qubitCount symmetrize k spec) pending blocks)
    (hn : pending.Nodup) (hlen : results.length = blocks.flatten.length)
    (hw : ∀ result ∈ results, ∃ bits, result.measurements.get? BasisChange.key = some bits ∧
      qubitCount = bits.width) :
    batchesFor k (blocks.flatten.zip results) = batchesAt symmetrize pending results k := by
  induction hb generalizing results with
  | nil => simp [batchesFor, batchesAt]
  | @cons l block pending blocks hblock _ ih =>
    obtain ⟨spec, _, rfl⟩ := hblock
    obtain ⟨hl, hn⟩ := List.nodup_cons.mp hn
    have hsize := Variant.length_ofSpec qubitCount symmetrize l spec
    rw [List.flatten_cons, List.length_append, hsize] at hlen
    have hhead : (results.take (if symmetrize then 2 else 1)).length =
        if symmetrize then 2 else 1 := by
      rw [List.length_take]
      omega
    have htail : (results.drop (if symmetrize then 2 else 1)).length = blocks.flatten.length := by
      rw [List.length_drop]
      omega
    have hsplit : (Variant.ofSpec qubitCount symmetrize l spec ++ blocks.flatten).zip results =
        (Variant.ofSpec qubitCount symmetrize l spec).zip
            (results.take (if symmetrize then 2 else 1)) ++
          blocks.flatten.zip (results.drop (if symmetrize then 2 else 1)) := by
      rw [← List.zip_append (by rw [hsize, hhead]), List.take_append_drop]
    rw [List.flatten_cons, hsplit, batchesFor_append,
      batchesFor_ofSpec hhead fun r hr => hw r (List.mem_of_mem_take hr),
      ih hn htail fun r hr => hw r (List.mem_of_mem_drop hr)]
    by_cases hlk : l = k
    · subst hlk
      have hnone : List.idxOf? l pending = none := List.idxOf?_eq_none_iff.mpr hl
      have hrest : batchesAt symmetrize pending
          (results.drop (if symmetrize then 2 else 1)) l = [] := by
        simp [batchesAt, hnone]
      rw [if_pos rfl, hrest, List.append_nil]
      exact batchesAt_cons_self.symm
    · rw [if_neg hlk, batchesAt_cons_of_ne hlk, List.nil_append]

variable [Scalar R] {sampler : Sampler R σ} {criterion : Criterion R κ}
  {config : MeasurementConfig} {job : Job R} {session session' : Session R} {s s' : σ} {t t' : κ}

theorem nodup_of_call? {call : Call R} (hn : session.pending.Nodup)
    (hc : call? sampler criterion config job session s t = some call) :
    call.plan.pending.Nodup :=
  (Plan.next_sublist (call?_eq_some hc).1).nodup hn

theorem answers_of_continued {call : Call R}
    (hc : call? sampler criterion config job session s t = some call)
    (h : round sampler criterion config job session s t = (.continued session', s', t')) :
    ∃ results, call.answer = .ok results ∧
      results.length = call.request.sweep.points.length ∧
      ∀ result ∈ results, ∃ bits, result.measurements.get? BasisChange.key = some bits ∧
        job.qubits.length = bits.width := by
  obtain ⟨call', results, accumulators, hc', ha, hd, _⟩ := round_eq_continued h
  obtain rfl : call = call' := Option.some.inj (hc.symm.trans hc')
  obtain ⟨hlen, hfold⟩ := deliver?_eq_ok hd
  have hs := submits_of_call? hc
  refine ⟨results, ha, hlen.trans hs.points.length_eq, ?_⟩
  intro result hr
  obtain ⟨j, hj, rfl⟩ := List.mem_iff_getElem.mp hr
  have hjv : j < call.variants.length := hlen ▸ hj
  have hzip : (call.variants[j], results[j]) ∈ call.variants.zip results := by
    rw [← List.getElem_zip (h := by rw [List.length_zip]; omega)]
    exact List.getElem_mem _
  obtain ⟨bits, hb, hw⟩ := deliverAll_widths hfold _ hzip
  have hflips := Variant.length_flips_of_ofPending? hs.variants_eq (List.getElem_mem hjv)
  exact ⟨bits, hb, hflips.symm.trans hw⟩

/-- A round that goes on adds the batches of its call to every accumulator. -/
theorem round_extends {call : Call R} (hn : session.pending.Nodup)
    (hc : call? sampler criterion config job session s t = some call)
    (h : round sampler criterion config job session s t = (.continued session', s', t')) :
    session'.accumulators.length = session.accumulators.length ∧
      ∀ (k : Nat) (a : Accumulator R), session.accumulators[k]? = some a →
        ∃ b, session'.accumulators[k]? = some b ∧
          a.Extends b (call.batchesOf config.symmetrize k) := by
  obtain ⟨results, ha, hlen, hw⟩ := answers_of_continued hc h
  obtain ⟨call', results', accumulators, hc', ha', hd, rfl⟩ := round_eq_continued h
  obtain rfl : call = call' := Option.some.inj (hc.symm.trans hc')
  obtain rfl : results = results' := Except.ok.inj (ha.symm.trans ha')
  obtain ⟨hcount, hfold⟩ := deliver?_eq_ok hd
  obtain ⟨blocks, hflat, hblocks⟩ := Variant.ofPending?_eq_ok (submits_of_call? hc).variants_eq
  obtain ⟨hsize, hext⟩ := deliverAll_extends hfold
  refine ⟨hsize, ?_⟩
  intro k a hk
  have hbatches :
      batchesFor k (call.variants.zip results) = call.batchesOf config.symmetrize k := by
    rw [hflat, batchesFor_eq_batchesAt hblocks (nodup_of_call? hn hc) (hflat ▸ hcount) hw]
    unfold Call.batchesOf
    rw [ha]
  rw [← hbatches]
  exact hext k a hk

/-- At each of its rounds a run has added the batches of the calls so far to every accumulator, and
has counted the calls. -/
theorem history_extends {fuel : Nat} {before after : List (Visit R)} {v : Visit R}
    (hn : session.pending.Nodup)
    (h : history sampler criterion config job fuel session s t = before ++ v :: after) :
    v.session.accumulators.length = session.accumulators.length ∧
      v.session.rounds = session.rounds + (calls before).length ∧
      ∀ (k : Nat) (a : Accumulator R), session.accumulators[k]? = some a →
        ∃ b, v.session.accumulators[k]? = some b ∧
          a.Extends b ((calls before).flatMap (Call.batchesOf config.symmetrize k)) := by
  refine (history_along (P := fun calls session' => session'.pending.Nodup ∧
    session'.accumulators.length = session.accumulators.length ∧
    session'.rounds = session.rounds + calls.length ∧
    ∀ (k : Nat) (a : Accumulator R), session.accumulators[k]? = some a →
      ∃ b, session'.accumulators[k]? = some b ∧
        a.Extends b (calls.flatMap (Call.batchesOf config.symmetrize k)))
    [] ⟨hn, rfl, rfl, fun k a ha => ⟨a, ha, Accumulator.Extends.refl a⟩⟩ ?_ h).2
  rintro calls call session₁ session₂ s₁ s₂ t₁ t₂ ⟨hn, hlen, hrounds, hext⟩ hc hr
  obtain ⟨hlen', hstep⟩ := round_extends hn hc hr
  obtain ⟨call', _, _, hc', _, _, hnext⟩ := round_eq_continued hr
  obtain rfl : call = call' := Option.some.inj (hc.symm.trans hc')
  refine ⟨by rw [hnext]; exact nodup_of_call? hn hc, hlen'.trans hlen, ?_, fun k a ha => ?_⟩
  · rw [hnext, List.length_append, List.length_singleton, ← Nat.add_assoc, ← hrounds]
  · obtain ⟨b, hb, hab⟩ := hext k a ha
    obtain ⟨d, hd, hbd⟩ := hstep k b hb
    rw [List.flatMap_append, List.flatMap_singleton]
    exact ⟨d, hd, hab.trans hbd⟩

/-- A run that succeeds adds the batches of its calls, in their order, to every accumulator. -/
theorem run_extends {fuel : Nat} {run : MeasurementRun R} (hn : session.pending.Nodup)
    (h : Session.run sampler criterion config job fuel session s t = (some (.ok run), s', t')) :
    run.accumulators.length = session.accumulators.length ∧
      run.rounds = session.rounds +
        (calls (history sampler criterion config job fuel session s t)).length ∧
      ∀ (k : Nat) (a : Accumulator R), session.accumulators[k]? = some a →
        ∃ b, run.accumulators[k]? = some b ∧
          a.Extends b ((calls (history sampler criterion config job fuel session s t)).flatMap
            (Call.batchesOf config.symmetrize k)) := by
  obtain ⟨before, last, s₁, t₁, _, hfin, hhist⟩ := run_eq_ok (P := fun _ => True) trivial
    (fun _ _ => trivial) h
  obtain ⟨plan, _, _, rfl⟩ := round_eq_finished hfin
  have hcalls : calls (history sampler criterion config job fuel session s t) = calls before := by
    rw [hhist, calls_append_none]
  rw [hcalls]
  exact history_extends hn hhist

end Session

variable [Scalar R]

namespace Job

theorem padGroup?_eq_ok {qubits : List Qubit} {g : SettingGroup R} {padded : Setting R}
    (h : padGroup? qubits g = .ok padded) : BasisChange.pad? g.max qubits = .ok padded := by
  obtain ⟨setting, hs, h⟩ := bind_eq_ok_iff.mp h
  split at h
  next => cases h
  next =>
    cases h
    exact hs

theorem groupAccumulators?_eq_ok {qubits : List Qubit} {sweep : Sweep R} {g : SettingGroup R}
    {block : List (Accumulator R)} (h : groupAccumulators? qubits sweep g = .ok block) :
    ∃ padded, BasisChange.pad? g.max qubits = .ok padded ∧
      block = sweep.points.map fun b =>
        Accumulator.empty ⟨padded, b⟩ g.settings (columnsOf qubits) := by
  obtain ⟨padded, hp, h⟩ := bind_eq_ok_iff.mp h
  cases h
  exact ⟨padded, padGroup?_eq_ok hp, rfl⟩

theorem start?_accumulators {c : Circuit R} {groups : List (SettingGroup R)} {sweep : Sweep R}
    {job : Job R} {session : Session R} (h : start? c groups sweep = .ok (job, session)) :
    session.accumulators.length = groups.length * sweep.points.length ∧
      ∀ i j g p, groups[i]? = some g → sweep.points[j]? = some p →
        ∃ padded, BasisChange.pad? g.max (qubitsOf groups) = .ok padded ∧
          session.accumulators[i * sweep.points.length + j]? =
            some (Accumulator.empty ⟨padded, p⟩ g.settings (columnsOf (qubitsOf groups))) := by
  obtain ⟨blocks, hb, _, rfl⟩ := start?_eq_ok h
  have hblocks := mapM_eq_ok_iff.mp hb
  have hsize : ∀ block ∈ blocks, block.length = sweep.points.length := by
    intro block hm
    obtain ⟨g, _, hg⟩ := forall₂_exists_of_mem hblocks hm
    obtain ⟨_, _, rfl⟩ := groupAccumulators?_eq_ok hg
    exact List.length_map _
  refine ⟨by rw [length_flatten_blocks hsize, hblocks.length_eq], ?_⟩
  intro i j g p hg hp
  obtain ⟨block, hi, hblock⟩ := forall₂_getElem? hblocks hg
  obtain ⟨padded, hpad, rfl⟩ := groupAccumulators?_eq_ok hblock
  refine ⟨padded, hpad, ?_⟩
  rw [getElem?_flatten_blocks hsize hi (List.getElem?_eq_some_iff.mp hp).1, List.getElem?_map, hp,
    Option.map_some]

end Job

/-- The sweep point at a position binds what the variant binds. -/
def Call.BindsAt (call : Call R) (qubits : List Qubit) (needsInitial : Bool) (j : Nat)
    (v : Variant R) : Prop :=
  ∃ b, call.request.sweep.points[j]? = some b ∧ v.bindings? qubits needsInitial = .ok b

/-- The points of a call are those of its pending specifications, with the flipped point right
after the unflipped one, and every point is answered by joint bits on all qubits. -/
structure Call.Serves (call : Call R) (symmetrize : Bool) (qubits : List Qubit)
    (needsInitial : Bool) (specs : List (Spec R)) : Prop where
  nodup : call.plan.pending.Nodup
  length_points : call.request.sweep.points.length =
    call.plan.pending.length * if symmetrize then 2 else 1
  answered : ∃ results, call.answer = .ok results ∧
    results.length = call.request.sweep.points.length ∧
    ∀ result ∈ results, ∃ bits, result.measurements.get? BasisChange.key = some bits ∧
      qubits.length = bits.width
  bound : ∀ i k, call.plan.pending[i]? = some k → ∃ spec, specs[k]? = some spec ∧
    if symmetrize then
      call.BindsAt qubits needsInitial (2 * i) ⟨k, spec, List.replicate qubits.length false⟩ ∧
        call.BindsAt qubits needsInitial (2 * i + 1) ⟨k, spec, List.replicate qubits.length true⟩
    else call.BindsAt qubits needsInitial i ⟨k, spec, List.replicate qubits.length false⟩

namespace Session

theorem Submits.bindsAt {job : Job R} {config : MeasurementConfig} {call : Call R}
    (h : Submits job config call.plan call.variants call.request) {j : Nat} {v : Variant R}
    (hv : call.variants[j]? = some v) : call.BindsAt job.qubits job.needsInitial j v :=
  forall₂_getElem? h.points hv

variable {sampler : Sampler R σ} {criterion : Criterion R κ} {config : MeasurementConfig}
  {job : Job R} {session session' : Session R} {s s' : σ} {t t' : κ}

theorem serves_of_continued {call : Call R} (hn : session.pending.Nodup)
    (hc : call? sampler criterion config job session s t = some call)
    (h : round sampler criterion config job session s t = (.continued session', s', t')) :
    call.Serves config.symmetrize job.qubits job.needsInitial job.specs := by
  have hs := submits_of_call? hc
  have hlen := Variant.ofPending?_length hs.variants_eq
  refine ⟨nodup_of_call? hn hc, hs.points.length_eq ▸ hlen, answers_of_continued hc h, ?_⟩
  intro i k hk
  obtain ⟨spec, hspec, hvariant⟩ := Variant.getElem?_ofPending?_block hs.variants_eq hk
  refine ⟨spec, hspec, ?_⟩
  split
  next hsym =>
    rw [hsym] at hvariant
    have h₀ := hvariant 0 (by decide)
    have h₁ := hvariant 1 (by decide)
    rw [if_pos rfl, Nat.mul_comm] at h₀ h₁
    exact ⟨hs.bindsAt h₀, hs.bindsAt h₁⟩
  next hsym =>
    rw [Bool.not_eq_true] at hsym
    rw [hsym] at hvariant
    have h₀ := hvariant 0 (by decide)
    rw [if_neg (by decide), Nat.mul_one] at h₀
    exact hs.bindsAt h₀

end Session

/-- In a measurement that succeeds, the accumulator of group `i` and sweep point `j` holds the
batches that the calls deliver for it, call by call, and nothing else. -/
theorem accumulators_hold_their_batches (sampler : Sampler R σ) (criterion : Criterion R κ)
    (config : MeasurementConfig) (c : Circuit R) (groups : List (SettingGroup R))
    (sweep : Sweep R) (fuel : Nat) (s s' : σ) (t t' : κ) (run : MeasurementRun R)
    (h : measure sampler criterion config c groups sweep fuel s t =
      (some (.ok run), s', t')) :
    let calls := Session.calls (measureHistory sampler criterion config c groups sweep fuel s t)
    run.rounds = calls.length ∧
      run.accumulators.length = groups.length * sweep.points.length ∧
      (∀ call ∈ calls, call.Serves config.symmetrize (Job.qubitsOf groups)
        (BasisChange.needsInitial (groups.map SettingGroup.max))
        (run.accumulators.map Accumulator.spec)) ∧
      ∀ i j g p, groups[i]? = some g → sweep.points[j]? = some p →
        let batches := calls.flatMap
          (Call.batchesOf config.symmetrize (i * sweep.points.length + j))
        ∃ padded a, BasisChange.pad? g.max (Job.qubitsOf groups) = .ok padded ∧
          run.accumulators[i * sweep.points.length + j]? = some a ∧ a.spec = ⟨padded, p⟩ ∧
          a.settings = g.settings ∧ a.bits.rows = batches.flatten ∧
          a.batches = batches.map List.length := by
  unfold measureHistory
  unfold measure at h
  cases hstart : Job.start? c groups sweep with
  | error e => simp [hstart] at h
  | ok started =>
    obtain ⟨job, session⟩ := started
    rw [hstart] at h
    obtain ⟨blocks, _, hjob, hsession⟩ := Job.start?_eq_ok hstart
    obtain ⟨hsize, hinitial⟩ := Job.start?_accumulators hstart
    have hn : session.pending.Nodup := by
      rw [hsession]
      exact List.nodup_range
    have hrounds₀ : session.rounds = 0 := by rw [hsession]
    obtain ⟨hlen, hrounds, hext⟩ := Session.run_extends hn h
    have hspecs : job.specs = run.accumulators.map Accumulator.spec := by
      have hfirst : job.specs = session.accumulators.map Accumulator.spec := by
        rw [hjob, hsession]
      rw [hfirst]
      apply List.ext_getElem?
      intro k
      rw [List.getElem?_map, List.getElem?_map]
      cases ha : session.accumulators[k]? with
      | none =>
        rw [List.getElem?_eq_none (hlen ▸ List.getElem?_eq_none_iff.mp ha)]
      | some a =>
        obtain ⟨b, hb, hab⟩ := hext k a ha
        rw [hb, Option.map_some, Option.map_some, hab.spec_eq]
    refine ⟨by simpa [hrounds₀] using hrounds, hlen.trans hsize, ?_, ?_⟩
    · intro call hcall
      obtain ⟨v, hv, hvc⟩ := List.mem_filterMap.mp hcall
      obtain ⟨hnv, s₁, t₁, session', s₂, t₂, hc, hr⟩ := Session.continued_of_run_eq_ok
        (P := fun session => session.pending.Nodup) hn
        (fun hn hr => by
          obtain ⟨call, _, _, hc, _, _, rfl⟩ := Session.round_eq_continued hr
          exact Session.nodup_of_call? hn hc) h hv hvc
      have hserves := Session.serves_of_continued hnv hc hr
      rw [hspecs, hjob] at hserves
      exact hserves
    · intro i j g p hg hp
      obtain ⟨padded, hpad, ha⟩ := hinitial i j g p hg hp
      obtain ⟨b, hb, hab⟩ := hext _ _ ha
      have hrows := hab.rows_eq
      rw [Accumulator.rows_empty, List.nil_append] at hrows
      exact ⟨padded, b, hpad, hb, hab.spec_eq, hab.settings_eq, hrows, hab.batches_eq⟩

/-- Two groups at two sweep points, with symmetrization and in two rounds. -/
theorem accumulators_hold_their_batches_symmetrized :
    ∃ run s t a, measure alternatingSampler (StoppingPolicy.repetitions ⟨6, 4⟩).criterion
        ⟨1000, true, none⟩ ∅ unevenGroups ⟨[Bindings.empty, Bindings.empty]⟩ 4 0 () =
          (some (.ok run), s, t) ∧
      run.accumulators.length = 4 ∧ run.accumulators[2]? = some a ∧
      a.settings = [readingZ ⟨1⟩, readingZ ⟨1⟩] ∧ a.batches = [2, 2, 1, 1] ∧
      a.bits.rows = ((Session.calls (measureHistory alternatingSampler
        (StoppingPolicy.repetitions ⟨6, 4⟩).criterion ⟨1000, true, none⟩ ∅ unevenGroups
        ⟨[Bindings.empty, Bindings.empty]⟩ 4 0 ())).flatMap (Call.batchesOf true 2)).flatten := by
  have hok : ((measure alternatingSampler (StoppingPolicy.repetitions ⟨6, 4⟩).criterion
      ⟨1000, true, none⟩ ∅ unevenGroups ⟨[Bindings.empty, Bindings.empty]⟩ 4 0 ()).1.bind
        Except.toOption).map (fun run => run.accumulators.map Accumulator.batches) =
      some (List.replicate 4 [2, 2, 1, 1]) := by decide +kernel
  obtain ⟨run, hrun, hbatches⟩ := Option.map_eq_some_iff.mp hok
  cases hm : measure alternatingSampler (StoppingPolicy.repetitions ⟨6, 4⟩).criterion
      ⟨1000, true, none⟩ ∅ unevenGroups ⟨[Bindings.empty, Bindings.empty]⟩ 4 0 () with
  | mk outcome states =>
    rw [hm] at hrun
    obtain rfl : outcome = some (.ok run) := by
      match outcome, hrun with
      | some (.ok _), hrun => rw [Option.some.inj hrun]
    obtain ⟨_, hlen, _, hat⟩ := accumulators_hold_their_batches alternatingSampler
      (StoppingPolicy.repetitions ⟨6, 4⟩).criterion ⟨1000, true, none⟩ ∅ unevenGroups
      ⟨[Bindings.empty, Bindings.empty]⟩ 4 0 states.1 () states.2 run hm
    obtain ⟨_, a, _, ha, _, hsettings, hrows, _⟩ := hat 1 0 _ _ rfl rfl
    have hsizes : a.batches = [2, 2, 1, 1] := by
      have hmap := congrArg (fun batches => batches[2]?) hbatches
      simpa [List.getElem?_map, show run.accumulators[2]? = some a from ha] using hmap
    exact ⟨run, states.1, states.2, a, rfl, hlen, ha, hsettings, hsizes, hrows⟩

end PauliEstimation
