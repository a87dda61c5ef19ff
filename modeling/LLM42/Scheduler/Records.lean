import LLM42.Library.Aligned
import LLM42.Scheduler.Written

/-! # Per-token records

The lists that a request keeps beside its output: one entry for each token as long as nothing is
rolled back. A pass replaces the log-probabilities of the window and leaves the other lists alone. -/

namespace LLM42

open Scheduler LLM42Worker LLM42Info Library List

/-- When an entry describes the output token at a position of a request: for log-probabilities, which
a pass replaces, and for the rest of a row. -/
structure Description where
  logprob : ReqId → ℕ → Token → Logprob → Prop
  row : ReqId → ℕ → Token → LogitsRow → Prop

namespace Req

/-- The log-probabilities describe the output, and their `idx` column is the output. -/
structure LogprobsAligned (D : ℕ → Token → Logprob → Prop) (r : Req) : Prop where
  val : ∃ val, r.outputTokenLogprobsVal = some val ∧ Aligned D r.outputIds val
  idx : r.outputTokenLogprobsIdx = some r.outputIds

def ColumnOf {α : Type} (D : ℕ → Token → LogitsRow → Prop) (field : LogitsRow → α)
    (ids : List Token) (xs : List α) : Prop :=
  Aligned (fun k t x => ∃ row, D k t row ∧ field row = x) ids xs

/-- The other lists describe the output too, those that the request keeps. -/
structure ColumnsAligned (D : ℕ → Token → LogitsRow → Prop) (r : Req) : Prop where
  topVal : r.returnLogprob → 0 < r.topLogprobsNum →
    ColumnOf D (·.topLogprobsVal) r.outputIds r.records.topLogprobsVal
  topIdx : r.returnLogprob → 0 < r.topLogprobsNum →
    ColumnOf D (·.topLogprobsIdx) r.outputIds r.records.topLogprobsIdx
  tokenIdsVal : r.returnLogprob → r.tokenIdsLogprob.isSome →
    ColumnOf D (·.tokenIdsLogprobsVal) r.outputIds r.records.tokenIdsLogprobsVal
  tokenIdsIdx : r.returnLogprob → r.tokenIdsLogprob.isSome →
    ColumnOf D (·.tokenIdsLogprobsIdx) r.outputIds r.records.tokenIdsLogprobsIdx
  customized : ∀ x ∈ r.records.customizedInfo,
    Aligned (fun k t y => ∃ row, D k t row ∧ (x.1, y) ∈ row.customizedInfo) r.outputIds x.2

/-- The keys of `customized_info` once the request has output. -/
def KeyedBy (keys : List String) (r : Req) : Prop :=
  (r.outputIds = [] ∧ r.records.customizedInfo = []) ∨ r.records.customizedInfo.map (·.1) = keys

def HasColumns (keys : List String) (r : Req) : Prop :=
  (r.returnLogprob ∧ (0 < r.topLogprobsNum ∨ r.tokenIdsLogprob.isSome)) ∨ keys ≠ []
deriving Decidable

section AppendInfo

variable {key : String} {info rest : List (String × List CustomInfo)}
  {entries : List (String × CustomInfo)}

theorem appendInfo_append (h : key ∉ info.map (·.1)) (value : CustomInfo)
    (rest : List (String × List CustomInfo)) :
    appendInfo key value (info ++ rest) = info ++ appendInfo key value rest := by
  induction info with
  | nil => rfl
  | cons x info ih =>
    obtain ⟨hx, hinfo⟩ := not_or.mp (mem_cons.not.mp h)
    rw [cons_append, appendInfo, if_neg fun heq => hx heq.symm, ih hinfo, cons_append]

theorem foldl_appendInfo_new (hnd : (info.map (·.1) ++ entries.map (·.1)).Nodup) :
    entries.foldl (fun acc x => appendInfo x.1 x.2 acc) info =
      info ++ entries.map fun x => (x.1, [x.2]) := by
  induction entries generalizing info with
  | nil => simp
  | cons x entries ih =>
    have hx : x.1 ∉ info.map (·.1) := fun hmem =>
      (nodup_append.mp hnd).2.2 x.1 hmem x.1 (by simp) rfl
    have hstep : appendInfo x.1 x.2 info = info ++ [(x.1, [x.2])] := by
      have h := appendInfo_append hx x.2 []
      simpa [appendInfo] using h
    rw [foldl_cons, hstep, ih (by simpa using hnd), map_cons, append_assoc]
    rfl

theorem foldl_appendInfo_known (hkeys : rest.map (·.1) = entries.map (·.1))
    (hnd : (info.map (·.1) ++ entries.map (·.1)).Nodup) :
    entries.foldl (fun acc x => appendInfo x.1 x.2 acc) (info ++ rest) =
      info ++ (rest.zip entries).map fun p => (p.1.1, p.1.2 ++ [p.2.2]) := by
  induction entries generalizing info rest with
  | nil =>
    obtain rfl : rest = [] := by simpa using hkeys
    simp
  | cons x entries ih =>
    cases rest with
    | nil => simp at hkeys
    | cons a rest =>
      simp only [map_cons, cons.injEq] at hkeys hnd
      obtain ⟨hkey, hkeys⟩ := hkeys
      have hx : x.1 ∉ info.map (·.1) := fun hmem =>
        (nodup_append.mp hnd).2.2 x.1 hmem x.1 (by simp) rfl
      have hstep : appendInfo x.1 x.2 (info ++ a :: rest) =
          (info ++ [(a.1, a.2 ++ [x.2])]) ++ rest := by
        rw [appendInfo_append hx, appendInfo, if_pos hkey, append_assoc]
        rfl
      rw [foldl_cons, hstep, ih hkeys (by simpa [hkey] using hnd), zip_cons_cons,
        map_cons, append_assoc]
      rfl

theorem fst_eq_of_mem_zip (h : rest.map (·.1) = entries.map (·.1))
    {p : (String × List CustomInfo) × (String × CustomInfo)} (hp : p ∈ rest.zip entries) :
    p.1.1 = p.2.1 := by
  have hall : Forall₂ (fun a x => a.1 = x.1) rest entries := by
    rw [← forall₂_eq_eq_eq, forall₂_map_left_iff, forall₂_map_right_iff] at h
    exact h
  exact forall₂_zip hall hp

end AppendInfo

section Append

variable {r r' : Req} {token : Token} {logits : LogitsRow}

theorem LogprobsAligned.appendToken {D : ℕ → Token → Logprob → Prop} (h : r.LogprobsAligned D)
    (hlp : r.returnLogprob) (hD : D r.outputIds.length token logits.logprob) :
    (r.appendToken token logits).LogprobsAligned D := by
  obtain ⟨val, hval, haligned⟩ := h.val
  refine ⟨⟨val ++ [logits.logprob], ?_, haligned.concat hD⟩, ?_⟩
  · simp [Req.appendToken, hlp, hval]
  · simp [Req.appendToken, hlp, h.idx]

theorem ColumnsAligned.appendToken {D : ℕ → Token → LogitsRow → Prop} {keys : List String}
    (h : r.ColumnsAligned D) (hkeyed : r.KeyedBy keys) (hnd : keys.Nodup)
    (hkeys : logits.customizedInfo.map (·.1) = keys) (hD : D r.outputIds.length token logits) :
    (r.appendToken token logits).ColumnsAligned D ∧ (r.appendToken token logits).KeyedBy keys := by
  have hcolumn : ∀ {α : Type} {field : LogitsRow → α} {xs : List α} {b : Bool}, b = true →
      ColumnOf D field r.outputIds xs →
      ColumnOf D field (r.outputIds ++ [token]) (xs ++ if b then [field logits] else []) := by
    rintro α field xs b rfl hxs
    exact hxs.concat ⟨logits, hD, rfl⟩
  -- the first token brings the keys, later tokens find them
  have hinfo : (logits.customizedInfo.foldl (fun acc x => appendInfo x.1 x.2 acc)
        r.records.customizedInfo).map (·.1) = keys ∧
      ∀ x ∈ logits.customizedInfo.foldl (fun acc x => appendInfo x.1 x.2 acc)
        r.records.customizedInfo,
        Aligned (fun k t y => ∃ row, D k t row ∧ (x.1, y) ∈ row.customizedInfo)
          (r.outputIds ++ [token]) x.2 := by
    rcases hkeyed with ⟨hids, hempty⟩ | hknown
    · have hnd' : (([] : List (String × List CustomInfo)).map (·.1) ++
          logits.customizedInfo.map (·.1)).Nodup := by simpa [hkeys] using hnd
      rw [hempty, foldl_appendInfo_new hnd', hids, nil_append, nil_append]
      rw [hids, length_nil] at hD
      refine ⟨by simpa [Function.comp_def] using hkeys, fun x hx => ?_⟩
      obtain ⟨y, hy, rfl⟩ := mem_map.mp hx
      exact Aligned.singleton ⟨logits, hD, hy⟩
    · have hsame := hknown.trans hkeys.symm
      have hnd' : (([] : List (String × List CustomInfo)).map (·.1) ++
          logits.customizedInfo.map (·.1)).Nodup := by simpa [hkeys] using hnd
      have hfold := foldl_appendInfo_known hsame hnd'
      rw [nil_append, nil_append] at hfold
      rw [hfold]
      constructor
      · have hlen : r.records.customizedInfo.length = logits.customizedInfo.length := by
          simpa using congrArg length hsame
        rw [map_map, ← hknown]
        have hfst : (r.records.customizedInfo.zip logits.customizedInfo).map Prod.fst =
            r.records.customizedInfo := map_fst_zip hlen.le
        conv_rhs => rw [← hfst, map_map]
        rfl
      · intro x hx
        obtain ⟨p, hp, rfl⟩ := mem_map.mp hx
        obtain ⟨ha, hy⟩ := of_mem_zip hp
        refine (h.customized p.1 ha).concat ⟨logits, hD, ?_⟩
        rw [fst_eq_of_mem_zip hsame hp]
        exact hy
  have htop : ∀ hr : r.returnLogprob, 0 < r.topLogprobsNum →
      (r.returnLogprob && decide (0 < r.topLogprobsNum)) = true := by
    intro hr ht
    simpa [hr] using ht
  have hids : ∀ hr : r.returnLogprob, r.tokenIdsLogprob.isSome →
      (r.returnLogprob && r.tokenIdsLogprob.isSome) = true := by
    intro hr ht
    simpa [hr] using ht
  refine ⟨⟨fun hr ht => ?_, fun hr ht => ?_, fun hr ht => ?_, fun hr ht => ?_, hinfo.2⟩,
    .inr hinfo.1⟩
  · exact hcolumn (htop hr ht) (h.topVal hr ht)
  · exact hcolumn (htop hr ht) (h.topIdx hr ht)
  · exact hcolumn (hids hr ht) (h.tokenIdsVal hr ht)
  · exact hcolumn (hids hr ht) (h.tokenIdsIdx hr ht)

end Append

section Congr

variable {r r' : Req}

theorem LogprobsAligned.congr {D : ℕ → Token → Logprob → Prop} (h : r.LogprobsAligned D)
    (hw : r'.written = r.written) : r'.LogprobsAligned D := by
  have hview : r.written.LogprobsAligned D := ⟨h.val, h.idx⟩
  rw [← hw] at hview
  exact ⟨hview.val, hview.idx⟩

theorem ColumnsAligned.congr {D : ℕ → Token → LogitsRow → Prop} (h : r.ColumnsAligned D)
    (hw : r'.written = r.written) : r'.ColumnsAligned D := by
  have hview : r.written.ColumnsAligned D :=
    { h with }
  rw [← hw] at hview
  exact { hview with }

theorem KeyedBy.congr {keys : List String} (h : r.KeyedBy keys) (hw : r'.written = r.written) :
    r'.KeyedBy keys := by
  have hview : r.written.KeyedBy keys := h
  rw [← hw] at hview
  exact hview

theorem returnLogprob_written (hw : r'.written = r.written) :
    r'.returnLogprob = r.returnLogprob := by
  have h := congrArg (fun x : Req => x.returnLogprob) hw
  exact h

theorem hasColumns_written {keys : List String} (hw : r'.written = r.written) :
    r'.HasColumns keys ↔ r.HasColumns keys := by
  have h := congrArg (fun x : Req => x.HasColumns keys) hw
  exact iff_of_eq h

end Congr

end Req

section Verified

variable {w : LLM42Worker} {v : Verdict} {id : ReqId} {r r' : Req} {net : ℕ}

theorem rollbackCount_of_skip (hskip : w.skipMismatch ≤ 0) (window rows : List Token) :
    w.rollbackCount window rows = 0 := by
  have h1 : ¬ 100 ≤ w.skipMismatch := fun h => by linarith
  simp [rollbackCount, h1, hskip]

theorem Verdict.Outcome.outputIds_of_zero (h : v.Outcome w id r r' net)
    (hk : w.rollbackCount r.unverified (v.rows id r) = 0) : r'.outputIds = r.outputIds := by
  have hout := h.outcome
  cases hout with
  | accepted => rfl
  | corrected _ _ hpos => exact absurd hk hpos.ne'

theorem Verdict.Outcome.returnLogprob (h : v.Outcome w id r r' net) :
    r'.returnLogprob = r.returnLogprob := by
  have hout := h.outcome
  cases hout with
  | accepted => rfl
  | corrected => rfl

theorem Req.LogprobsAligned.verified {D : ℕ → Token → Logprob → Prop} (h : r.LogprobsAligned D)
    (hle : r.llm42VerifiedTokens ≤ r.outputIds.length) (hout : v.Outcome w id r r' net)
    (hlps : ∃ lps ∈ v.logprobs, ∀ i < r.unverified.length,
      D (r.llm42VerifiedTokens + i) (v.tokens id i) (lps id i))
    (hkept : w.skipMismatch ≤ 0 ∨
      r.unverified.take (r.unverified.length - w.rollbackCount r.unverified (v.rows id r)) =
        (v.rows id r).take (r.unverified.length - w.rollbackCount r.unverified (v.rows id r))) :
    r'.LogprobsAligned D := by
  obtain ⟨val, hval, haligned⟩ := h.val
  have hrecord := hout.logprobs
  by_cases hskip : w.skipMismatch ≤ 0
  · have hids := hout.outputIds_of_zero (rollbackCount_of_skip hskip _ _)
    simp only [passLogprobs, if_pos hskip, logprobRecord, Prod.mk.injEq] at hrecord
    refine ⟨⟨val, hrecord.1.trans hval, by rwa [hids]⟩, ?_⟩
    rw [hrecord.2.1, h.idx, hids]
  · obtain ⟨lps, hsome, hD⟩ := hlps
    have hlen := r.length_unverified
    have hids := hout.outcome.outputIds_eq (hkept.resolve_left hskip)
    have hvalLen := haligned.length_eq
    have hsub : r.outputIds.length - r.unverified.length = r.llm42VerifiedTokens := by omega
    have hrows : v.logprobRows id r = some ((range r.unverified.length).map (lps id)) := by
      rw [Verdict.logprobRows, hsome]
      rfl
    simp only [passLogprobs, if_neg hskip, hrows, Option.map_some, replaceLogprobs, hval, h.idx,
      logprobRecord, Prod.mk.injEq, rdrop, hvalLen, hsub] at hrecord
    obtain ⟨hval', hidx', _⟩ := hrecord
    refine ⟨⟨_, hval', ?_⟩, ?_⟩
    · rw [hids]
      refine (haligned.take _).append ?_
      rw [length_take, min_eq_left hle]
      exact (Aligned.of_range hD).take _
    · rw [hidx', hids]
      rfl

theorem Req.ColumnsAligned.verified {D : ℕ → Token → LogitsRow → Prop} {keys : List String}
    (h : r.ColumnsAligned D) (hkeyed : r.KeyedBy keys) (hout : v.Outcome w id r r' net)
    (hzero : r.HasColumns keys → w.rollbackCount r.unverified (v.rows id r) = 0) :
    r'.ColumnsAligned D ∧ r'.KeyedBy keys := by
  by_cases hcols : r.HasColumns keys
  · have houtcome := hout.outcome
    have hk := hzero hcols
    cases houtcome with
    | accepted x _ =>
      exact ⟨{ h with }, hkeyed⟩
    | corrected _ _ hpos => exact absurd hk hpos.ne'
  · obtain ⟨hlists, hkeys⟩ := not_or.mp hcols
    obtain rfl : keys = [] := not_not.mp hkeys
    have hempty : r.records.customizedInfo = [] := by
      rcases hkeyed with ⟨_, hempty⟩ | hnil
      · exact hempty
      · exact map_eq_nil_iff.mp hnil
    have hsame : r'.records = r.records ∧ r'.topLogprobsNum = r.topLogprobsNum ∧
        r'.tokenIdsLogprob = r.tokenIdsLogprob := by
      have houtcome := hout.outcome
      cases houtcome with
      | accepted => exact ⟨rfl, rfl, rfl⟩
      | corrected => exact ⟨rfl, rfl, rfl⟩
    obtain ⟨hrecords, htop, hids⟩ := hsame
    have hempty' : r'.records.customizedInfo = [] := by rw [hrecords, hempty]
    have hnone : r'.returnLogprob → ¬ (0 < r'.topLogprobsNum ∨ r'.tokenIdsLogprob.isSome) := by
      rw [hout.returnLogprob, htop, hids]
      exact fun hr hx => hlists ⟨hr, hx⟩
    refine ⟨⟨fun hr ht => ?_, fun hr ht => ?_, fun hr ht => ?_, fun hr ht => ?_, by simp [hempty']⟩,
      .inr (by rw [hempty', map_nil])⟩
    · exact absurd (.inl ht) (hnone hr)
    · exact absurd (.inl ht) (hnone hr)
    · exact absurd (.inr ht) (hnone hr)
    · exact absurd (.inr ht) (hnone hr)

end Verified

/-- Every list that a request keeps describes its output. -/
structure Req.Recorded (D : Description) (keys : List String) (id : ReqId) (r : Req) : Prop where
  logprobs : r.returnLogprob → r.LogprobsAligned (D.logprob id)
  columns : r.ColumnsAligned (D.row id)
  keyed : r.KeyedBy keys

/-- A sampled token of the vocabulary, with a row that describes it at its position. -/
def Req.Samples (D : Description) (keys : List String) (id : ReqId) (r : Req) (token : Token)
    (logits : LogitsRow) : Prop :=
  ¬ r.outsideVocab token ∧ D.logprob id r.outputIds.length token logits.logprob ∧
    D.row id r.outputIds.length token logits ∧ logits.customizedInfo.map (·.1) = keys

/-- What keeps the lists of a request aligned through a pass. The rows of the verifier describe their
tokens; no token that differs from the verifier's is kept beside the verifier's own entry, which only
mismatch injection does; and nothing is rolled back where the request has lists that a pass does not
truncate. -/
def Verdict.KeepsRecords (v : Verdict) (w : LLM42Worker) (D : Description) (keys : List String)
    (id : ReqId) (r : Req) (token : Token) : Prop :=
  let window := r.unverified ++ [token]
  let rows := (range window.length).map (v.tokens id)
  let kept := window.length - w.rollbackCount window rows
  (∀ i < window.length, ¬ r.outsideVocab (v.tokens id i)) ∧
    (r.returnLogprob → (∃ lps ∈ v.logprobs, ∀ i < window.length,
        D.logprob id (r.llm42VerifiedTokens + i) (v.tokens id i) (lps id i)) ∧
      (w.skipMismatch ≤ 0 ∨ window.take kept = rows.take kept)) ∧
    (r.HasColumns keys → w.Accepts window rows)

section Requests

variable {cfg : SchedulerConfig} {rejected planned : Prop} {token : Token} {logits : LogitsRow}
  {v : Verdict} {e e' : BatchEntry} {r r' : Req} {message : Option StreamMessage}
  {D : Description} {keys : List String} {id : ReqId}

theorem Req.Recorded.congr (h : r.Recorded D keys id) (hw : r'.written = r.written) :
    r'.Recorded D keys id :=
  ⟨fun hr => (h.logprobs (Req.returnLogprob_written hw ▸ hr)).congr hw, h.columns.congr hw,
    h.keyed.congr hw⟩

theorem Req.Recorded.appendToken (h : r.Recorded D keys id) (hnd : keys.Nodup)
    (hs : r.Samples D keys id token logits) : (r.appendToken token logits).Recorded D keys id := by
  obtain ⟨_, hlp, hrow, hkeys⟩ := hs
  obtain ⟨hcolumns, hkeyed⟩ := h.columns.appendToken h.keyed hnd hkeys hrow
  exact ⟨fun hr => (h.logprobs hr).appendToken hr hlp, hcolumns, hkeyed⟩

theorem RequestExtend.recorded {row : ℕ} (h : r.Recorded D keys id) (hnd : keys.Nodup)
    (hs : r.Samples D keys id token logits)
    (hx : RequestExtend cfg rejected token logits row r r' message) : r'.Recorded D keys id :=
  (h.appendToken hnd hs).congr (hx.written hs.1)

/-- A decode step keeps the recorded logprobs those of the kept tokens. -/
theorem RequestDecode.recorded (hle : r.llm42VerifiedTokens ≤ r.outputIds.length)
    (h : r.Recorded D keys e.req) (hnd : keys.Nodup) (hs : r.Samples D keys e.req token logits)
    (hv : cfg.args.enableLlm42 → v.KeepsRecords cfg.worker D keys e.req r token)
    (hd : RequestDecode cfg rejected planned token logits v e r e' r' message) :
    r'.Recorded D keys e.req := by
  have happ := h.appendToken hnd hs
  have hrows : cfg.args.enableLlm42 → ∀ i < r.unverified.length + 1,
      ¬ r.outsideVocab (v.tokens e.req i) := by
    intro henable i hi
    exact (hv henable).1 i (by simpa using hi)
  rcases hd.written hle hs.1 hrows with hw | ⟨r₂, r₄, net, henable, hw, hver, hwin, hout, hw'⟩
  · exact happ.congr hw
  · refine Req.Recorded.congr ?_ hw'
    have h₂ := happ.congr hw
    obtain ⟨_, hlps, hcols⟩ := hv henable
    have hids : r₂.outputIds = r.outputIds ++ [token] := Req.outputIds_written hw
    have hle₂ : r₂.llm42VerifiedTokens ≤ r₂.outputIds.length := by
      rw [hver, hids, length_append]
      omega
    have hreturn : r₂.returnLogprob = r.returnLogprob := (Req.returnLogprob_written hw).trans rfl
    have hrows₂ : v.rows e.req r₂ =
        (range (r.unverified ++ [token]).length).map (v.tokens e.req) := by
      rw [Verdict.rows, hwin]
    obtain ⟨hcolumns, hkeyed⟩ := h₂.columns.verified h₂.keyed hout fun hhas => by
      have hhas' : r.HasColumns keys := (Req.hasColumns_written hw).mp hhas
      rw [cfg.worker.rollbackCount_eq_zero_iff (by simp [hwin]) (by simp [Verdict.rows]), hrows₂,
        hwin]
      exact hcols hhas'
    refine ⟨fun hr => ?_, hcolumns, hkeyed⟩
    rw [hout.returnLogprob, hreturn] at hr
    obtain ⟨hD, hkept⟩ := hlps hr
    refine (h₂.logprobs (hreturn ▸ hr)).verified hle₂ hout ?_ ?_
    · rw [hver, hwin]
      exact hD
    · rw [hrows₂, hwin]
      exact hkept

end Requests

/-- The events that keep all per-token lists of deterministic requests aligned. -/
def SchedulerEvent.KeepsRecords (cfg : SchedulerConfig) (D : Description) (keys : List String)
    (s : Scheduler) : SchedulerEvent → Prop
  | .extend ids tokens logitsOf _ => ∀ id ∈ ids, (s.heap id).isDeterministic →
      (s.heap id).Samples D keys id (tokens id) (logitsOf id)
  | .decode tokens logitsOf verdict _ => ∀ id ∈ s.filterBatch.running,
      (s.heap id).isDeterministic → (s.heap id).Samples D keys id (tokens id) (logitsOf id) ∧
        (cfg.args.enableLlm42 →
          verdict.KeepsRecords cfg.worker D keys id (s.heap id) (tokens id))
  | _ => True

section Decidable

variable {D : Description} [∀ id k t x, Decidable (D.logprob id k t x)]
  [∀ id k t x, Decidable (D.row id k t x)]

instance (keys : List String) (id : ReqId) (r : Req) (token : Token) (logits : LogitsRow) :
    Decidable (r.Samples D keys id token logits) := by
  unfold Req.Samples
  infer_instance

instance (v : Verdict) (w : LLM42Worker) (keys : List String) (id : ReqId) (r : Req)
    (token : Token) : Decidable (v.KeepsRecords w D keys id r token) := by
  unfold Verdict.KeepsRecords
  infer_instance

instance (cfg : SchedulerConfig) (keys : List String) (s : Scheduler) (event : SchedulerEvent) :
    Decidable (event.KeepsRecords cfg D keys s) := by
  delta SchedulerEvent.KeepsRecords
  induction event using SchedulerEvent.casesOn <;> infer_instance

end Decidable

structure Records (cfg : SchedulerConfig) (D : Description) (keys : List String) (s : Scheduler) :
    Prop where
  consistent : Consistent cfg s
  recorded : ∀ id < s.nextId, (s.heap id).isDeterministic → (s.heap id).Recorded D keys id

section Runs

variable {cfg : SchedulerConfig} {s t : Scheduler} {D : Description} {keys : List String}

theorem Req.Initial.recorded {r : Req} (h : r.Initial) (id : ReqId) : r.Recorded D keys id := by
  have hids := h.outputIds
  have hrec := h.records
  refine ⟨fun hr => ?_, ⟨fun _ _ => ?_, fun _ _ => ?_, fun _ _ => ?_, fun _ _ => ?_, ?_⟩, ?_⟩
  · refine ⟨⟨[], by simp [h.logprobsVal, hr], ?_⟩, by simp [h.logprobsIdx, hr, hids]⟩
    rw [hids]
    exact aligned_nil _
  · rw [hids, hrec]
    exact aligned_nil _
  · rw [hids, hrec]
    exact aligned_nil _
  · rw [hids, hrec]
    exact aligned_nil _
  · rw [hids, hrec]
    exact aligned_nil _
  · simp [hrec]
  · exact .inl ⟨hids, by rw [hrec]⟩

theorem Records.step (hnd : keys.Nodup) (h : Records cfg D keys s) {event : SchedulerEvent}
    (hwhen : event.KeepsRecords cfg D keys s) (hs : s.step cfg event = .ok t) :
    Records cfg D keys t := by
  refine ⟨h.consistent.step hs, fun id hid hdet => ?_⟩
  cases h.consistent.requestStep hs hid with
  | kept hlt hkept _ _ _ =>
    rw [Req.isDeterministic_congr hkept.core_eq] at hdet
    exact (h.recorded id hlt hdet).congr (Req.written_congr hkept.core_eq)
  | received _ hnew hheap _ =>
    rw [hheap]
    exact (Req.initial_of_isNew hnew).recorded id
  | extended hmem hq hstep _ _ =>
    have hdet' : (s.heap id).isDeterministic := hstep.extended.isDeterministic ▸ hdet
    have hlt := h.consistent.lt id (mem_append_right _ hq)
    exact hstep.recorded (h.recorded id hlt hdet') hnd (hwhen id hmem hdet')
  | decoded P he heq _ _ hstep =>
    subst heq
    have hrun := mem_running.mpr ⟨_, he, rfl⟩
    have hdet' := hstep.isDeterministic ▸ hdet
    have hlive := live_of_mem_filterBatch h.consistent he
    have hlt := h.consistent.lt _ (mem_append_left _ (s.filterBatch_sublist.subset hrun))
    obtain ⟨hsample, hverdict⟩ := hwhen _ hrun hdet'
    exact hstep.recorded hlive.verified_le (h.recorded _ hlt hdet') hnd hsample hverdict
  | retracted _ hrun hheap _ =>
    have hlt := h.consistent.lt id (mem_append_left _ (s.filterBatch_sublist.subset hrun))
    rw [hheap] at hdet ⊢
    exact (h.recorded id hlt hdet).congr rfl

/-- In every run of such events, each per-token list of a deterministic request has one entry for
each output token, and the entry at `k` describes the token at `k`. -/
theorem records_aligned (hnd : keys.Nodup)
    (hs : Reachable (step cfg) (Boots cfg) (fun s e => e.KeepsRecords cfg D keys s) s) :
    ∀ id < s.nextId, (s.heap id).isDeterministic →
      ((s.heap id).returnLogprob → (s.heap id).LogprobsAligned (D.logprob id)) ∧
        (s.heap id).ColumnsAligned (D.row id) := by
  have hinv : Records cfg D keys s :=
    hs.invariant (fun _ hb => ⟨hb.consistent, fun id hid => by simp [hb.nextId] at hid⟩)
      fun _ _ _ hi hwhen hstep => hi.step hnd hwhen hstep
  exact fun id hid hdet => ⟨(hinv.recorded id hid hdet).logprobs, (hinv.recorded id hid hdet).columns⟩

end Runs

def tokenRow (t : ℕ) : LogitsRow where
  logprob := t
  topLogprobsVal := [t]
  topLogprobsIdx := [t]

/-- A request that asks for the log-probabilities of its tokens; decoding samples 6 and 7, and the
verifier answers 6 and `last`. -/
def loggedTokens (r : Req) (last : ℕ) : List SchedulerEvent :=
  [.receive { r with
      returnLogprob := true, outputTokenLogprobsVal := some [], outputTokenLogprobsIdx := some [] },
   .extend [0] (fun _ => 5) (fun _ => tokenRow 5) [],
   .decode (fun _ => 6) (fun _ => tokenRow 6) ⟨fun _ _ => 0, some fun _ _ => 0⟩ [],
   .decode (fun _ => 7) (fun _ => tokenRow 7)
     ⟨fun _ i => if i = 0 then 6 else last, some fun _ i => if i = 0 then 6 else last⟩ []]

/-- A deterministic request that also asks for `top` more log-probabilities at each position. -/
def rejectedLogprobs (top : ℕ) : List SchedulerEvent :=
  loggedTokens { smallReq with topLogprobsNum := top } 9

abbrev ownToken : Description where
  logprob _ _ t lp := lp = t
  row _ _ t row := row.topLogprobsIdx = [t]

theorem records_aligned_rejectedLogprobs :
    ∃ s, runEvents (step ⟨{}, smallServer.1⟩) (smallStart .chunkCache)
        (rejectedLogprobs 0) = .ok s ∧
      (s.heap 0).outputIds = [5, 6, 9] ∧ (s.heap 0).LogprobsAligned (ownToken.logprob 0) :=
  exists_runEvents_imp (p := fun _ => _ ∧ _ ∧ _ ∧ _) (boots_smallStart rfl) (by decide +kernel)
    fun _ hreach ⟨hid, hdet, hlp, hids⟩ =>
      ⟨hids, (records_aligned nodup_nil hreach 0 hid hdet).1 hlp⟩

/-- With `top_logprobs_num = 1` the entries of the two discarded tokens stay: the list is longer than
the output, and its second entry describes the token that the verifier rejected. -/
theorem top_logprobs_not_truncated :
    ∃ s, runEvents (step ⟨{}, smallServer.1⟩) (smallStart .chunkCache)
        ((rejectedLogprobs 1).take 3 ++
          [.decode (fun _ => 7) (fun _ => tokenRow 7) ⟨fun _ _ => 9, some fun _ _ => 9⟩ []]) =
          .ok s ∧
      (s.heap 0).isDeterministic ∧ (s.heap 0).returnLogprob ∧
      (s.heap 0).topLogprobsNum = 1 ∧ (s.heap 0).outputIds = [5, 9] ∧
      (s.heap 0).records.topLogprobsIdx = [[5], [6], [7]] :=
  exists_runEvents _ _ _ (by decide +kernel)

end LLM42
