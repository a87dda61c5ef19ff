import LLM42.Disaggregation.Prefill
import LLM42.Request.Basic
import Mathlib.Data.List.Nodup

/-! # First tokens on the decode server

A request of the transfer queue owns a row of the metadata buffers, into which its prefill server
writes the first token and the request's bootstrap room. Rows are reused and never cleared, so a
request whose success is seen before the write finds what the previous owner left there. -/

namespace LLM42.Disaggregation

open Library List

/-- A row of `MetadataBuffers`, as far as it decides about a commit and its token. -/
structure MetadataRow where
  outputId : Token := 0
  bootstrapRoom : ℤ := 0

/-- A request of the transfer queue, with the token that its prefill server samples. -/
structure DecodeRequest where
  bootstrapRoom : ℤ
  firstToken : Token
  /-- warm up, or the fake transfer backend -/
  fake : Bool
  metadataBufferIndex : ℕ
  poll : KVPoll := .bootstrapping
  /-- whether the prefill server's write has arrived -/
  written : Bool := false
  outputIds : List Token := []
  aborted : Bool := false

namespace DecodeRequest

variable (d : DecodeRequest) (row : MetadataRow)

/-- `_commit_transfer_to_req`: `none` while the metadata is not ready and the request stays. -/
def commitTransferToReq : Option DecodeRequest :=
  let committed := { d with outputIds := d.outputIds ++ [row.outputId] }
  if d.fake then some committed
  else if row.bootstrapRoom = 0 then none
  else if row.bootstrapRoom ≠ d.bootstrapRoom then some { d with aborted := true }
  else some committed

def polled : Option DecodeRequest :=
  match d.poll with
  | .failed => some { d with aborted := true }
  | .success => d.commitTransferToReq row
  | .bootstrapping | .waitingForInput | .transferring => none

end DecodeRequest

/-- `free_slots`, the buffers, the transfer queue and the requests that have left it. -/
structure TransferState where
  freeSlots : List ℕ
  buffers : ℕ → MetadataRow := fun _ => {}
  queue : List DecodeRequest := []
  popped : List DecodeRequest := []

/-- A request takes a free index, its status changes, its prefill server writes the row, or the
scheduler polls the queue. The positions that a poll removes are a set and return their indices in
any order, so any free index may be the next. -/
inductive TransferEvent
  | alloc (bootstrapRoom : ℤ) (firstToken : Token) (fake : Bool) (idx : ℕ)
  | status (idx : ℕ) (poll : KVPoll)
  | setBuf (idx : ℕ)
  | popTransferred (ridsToCheck : Option (List ℤ))

namespace TransferState

def create (size : ℕ) : TransferState := { freeSlots := range size }

def modify (s : TransferState) (idx : ℕ) (f : DecodeRequest → DecodeRequest) :
    List DecodeRequest :=
  s.queue.map fun d => if d.metadataBufferIndex = idx then f d else d

/-- Requests are told apart by their rooms here. -/
def turn (s : TransferState) (ridsToCheck : Option (List ℤ)) (d : DecodeRequest) :
    Option DecodeRequest :=
  if ridsToCheck.all (·.contains d.bootstrapRoom) then d.polled (s.buffers d.metadataBufferIndex)
  else none

def popTransferred (s : TransferState) (ridsToCheck : Option (List ℤ)) : TransferState :=
  { s with
    freeSlots := s.freeSlots ++
      (s.queue.filter fun d => (s.turn ridsToCheck d).isSome).map (·.metadataBufferIndex)
    queue := s.queue.filter fun d => !(s.turn ridsToCheck d).isSome
    popped := s.popped ++ s.queue.filterMap (s.turn ridsToCheck) }

def step (s : TransferState) : TransferEvent → Except Empty TransferState
  | .alloc bootstrapRoom firstToken fake idx => .ok <|
    if idx ∈ s.freeSlots then { s with
      freeSlots := s.freeSlots.erase idx
      queue := s.queue ++ [{ bootstrapRoom, firstToken, fake, metadataBufferIndex := idx }] }
    else s
  | .status idx poll => .ok { s with queue := s.modify idx fun d => { d with poll } }
  | .setBuf idx => .ok <|
    match s.queue.find? fun d => d.metadataBufferIndex = idx ∧ d.written = false with
    | none => s
    | some d => { s with
        buffers := Function.update s.buffers idx ⟨d.firstToken, d.bootstrapRoom⟩
        queue := s.modify idx fun d => { d with written := true } }
  | .popTransferred ridsToCheck => .ok (s.popTransferred ridsToCheck)

/-- Every new request has a prefill server and a bootstrap room of its own. -/
def NewRoom (s : TransferState) : TransferEvent → Prop
  | .alloc room _ fake _ =>
    fake = false ∧ room ≠ 0 ∧ room ∉ (s.queue ++ s.popped).map (·.bootstrapRoom)
  | _ => True

/-- A success that is seen before the write meets a row that nobody has used. -/
def SeesOwnRow (s : TransferState) : TransferEvent → Prop
  | .popTransferred _ => ∀ d ∈ s.queue, d.poll = .success →
      d.written = true ∨ (s.buffers d.metadataBufferIndex).bootstrapRoom = 0
  | _ => True

instance (s : TransferState) (e : TransferEvent) : Decidable (s.NewRoom e) := by
  cases e <;> unfold NewRoom <;> infer_instance

instance (s : TransferState) (e : TransferEvent) : Decidable (s.SeesOwnRow e) := by
  cases e <;> unfold SeesOwnRow <;> infer_instance

end TransferState

namespace DecodeRequest

/-- A request that has left the queue has its own first token, unless its transfer failed. -/
def Answered (d : DecodeRequest) : Prop :=
  if d.aborted then d.poll = .failed ∧ d.outputIds = [] else d.outputIds = [d.firstToken]

/-- A request in the queue has no token yet, and its write is in its row once it has arrived. -/
structure Waits (d : DecodeRequest) (row : MetadataRow) : Prop where
  genuine : d.fake = false
  room : d.bootstrapRoom ≠ 0
  outputIds : d.outputIds = []
  alive : d.aborted = false
  written : d.written = true → row = ⟨d.firstToken, d.bootstrapRoom⟩

theorem Waits.polled {d : DecodeRequest} {row : MetadataRow} (h : d.Waits row)
    (hrow : d.poll = .success → d.written = true ∨ row.bootstrapRoom = 0) :
    (∀ d' ∈ d.polled row, d'.Answered) ∧
      (d.polled row = none → d.poll = .success → d.written = false) := by
  unfold DecodeRequest.polled
  split
  next hpoll => simp [Answered, h.outputIds, hpoll]
  next hpoll =>
    rw [commitTransferToReq, h.genuine]
    rcases hrow hpoll with hwritten | hzero
    · simp [h.written hwritten, h.room, Answered, h.outputIds, h.alive]
    · have hnot : d.written = false := by
        by_contra hwritten
        rw [h.written (by simpa using hwritten)] at hzero
        exact h.room hzero
      simp [hzero, hnot]
  all_goals simp_all

end DecodeRequest

namespace TransferState

/-- Every index is free or owned by one request of the queue, which waits for its own row. -/
structure Served (size : ℕ) (s : TransferState) : Prop where
  indices : (s.freeSlots ++ s.queue.map (·.metadataBufferIndex)).Perm (range size)
  queued : ∀ d ∈ s.queue, d.Waits (s.buffers d.metadataBufferIndex)
  popped : ∀ d ∈ s.popped, d.Answered

variable {size : ℕ} {s t : TransferState}

section

variable (h : s.Served size)

include h

theorem Served.modify {idx : ℕ} {f : DecodeRequest → DecodeRequest} {buffers : ℕ → MetadataRow}
    (hidx : ∀ d, (f d).metadataBufferIndex = d.metadataBufferIndex)
    (hbuffers : ∀ i ≠ idx, buffers i = s.buffers i)
    (hf : ∀ d ∈ s.queue, d.metadataBufferIndex = idx → (f d).Waits (buffers idx)) :
    Served size { s with buffers, queue := s.modify idx f } where
  indices := by
    have hmap : (s.modify idx f).map (·.metadataBufferIndex) =
        s.queue.map (·.metadataBufferIndex) := by
      rw [TransferState.modify, map_map]
      refine map_congr_left fun d _ => ?_
      rw [Function.comp_apply, apply_ite DecodeRequest.metadataBufferIndex, hidx, ite_self]
    exact hmap ▸ h.indices
  queued := by
    intro x hx
    obtain ⟨d, hd, rfl⟩ := mem_map.mp hx
    split
    next heq =>
      rw [hidx, heq]
      exact hf d hd heq
    next hne =>
      have hwaits := h.queued d hd
      rwa [← hbuffers _ hne] at hwaits
  popped := h.popped

theorem Served.popTransferred {rids : Option (List ℤ)} (hrow : s.SeesOwnRow (.popTransferred rids)) :
    (s.popTransferred rids).Served size where
  indices := by
    refine .trans ?_ h.indices
    simp only [TransferState.popTransferred, append_assoc, ← map_append]
    exact ((filter_append_perm _ s.queue).map _).append_left _
  queued d hd := h.queued d (mem_filter.mp hd).1
  popped := by
    intro d hd
    rcases mem_append.mp hd with hd | hd
    · exact h.popped d hd
    · obtain ⟨e, he, hturn⟩ := mem_filterMap.mp hd
      unfold turn at hturn
      split at hturn
      · exact ((h.queued e he).polled (hrow e he)).1 d hturn
      · cases hturn

/-- Each buffer index keeps to one owner, who waits for its own row. -/
theorem Served.step {e : TransferEvent} (hnew : s.NewRoom e) (hrow : s.SeesOwnRow e)
    (hstep : s.step e = .ok t) : t.Served size := by
  cases e with
  | alloc room token fake idx =>
    obtain ⟨rfl, hroom, -⟩ := hnew
    simp only [TransferState.step] at hstep
    split at hstep <;> cases hstep
    next hidx =>
      refine ⟨.trans (perm_iff_count.mpr fun x => ?_) h.indices, fun d hd => ?_, h.popped⟩
      · have hcount := (perm_cons_erase hidx).count_eq x
        simp only [map_append, map_singleton, count_append, count_cons, count_nil] at hcount ⊢
        omega
      · rcases mem_append.mp hd with hd | hd
        · exact h.queued d hd
        · rw [mem_singleton.mp hd]
          exact ⟨rfl, hroom, rfl, rfl, nofun⟩
    · exact h
  | status idx poll =>
    cases hstep
    exact h.modify (fun _ => rfl) (fun _ _ => rfl) fun d hd hidx =>
      { hidx ▸ h.queued d hd with }
  | setBuf idx =>
    simp only [TransferState.step] at hstep
    split at hstep <;> cases hstep
    · exact h
    next d hfind =>
      have hd := mem_of_find?_eq_some hfind
      have hidx := find?_some hfind
      obtain ⟨rfl, -⟩ := of_decide_eq_true hidx
      refine h.modify (fun _ => rfl) (fun i hi => Function.update_of_ne hi _ _) fun e he hidx => ?_
      -- the owner of the index is the one that writes
      have hnodup := (nodup_append.mp (h.indices.nodup_iff.mpr nodup_range)).2.1
      obtain rfl : e = d := inj_on_of_nodup_map hnodup he hd hidx
      refine { h.queued e he with written := fun _ => ?_ }
      rw [Function.update_self]
  | popTransferred rids =>
    cases hstep
    exact h.popTransferred hrow

end

/-- In every run in which no success is seen before the write unless the row is unused: requests leave
the queue with their own first token, or aborted because their transfer failed; a poll leaves nobody
behind whose row is written; and every index is free or owned by one request of the queue. -/
theorem first_tokens_own (h : Reachable step (· = create size)
    (fun s e => s.NewRoom e ∧ s.SeesOwnRow e) s) :
    (∀ d ∈ s.popped, d.Answered) ∧ (∀ d ∈ s.queue, d.outputIds = [] ∧ d.aborted = false) ∧
      (s.freeSlots ++ s.queue.map (·.metadataBufferIndex)).Perm (range size) ∧
      (s.SeesOwnRow (.popTransferred none) →
        ∀ d ∈ (s.popTransferred none).queue, d.poll = .success → d.written = false) := by
  have hserved : s.Served size := by
    refine h.invariant ?_ fun s e t hs ha hstep => hs.step ha.1 ha.2 hstep
    rintro s rfl
    constructor <;> simp [create]
  refine ⟨hserved.popped, fun d hd => ?_, hserved.indices, fun hrow d hd => ?_⟩
  · exact ⟨(hserved.queued d hd).outputIds, (hserved.queued d hd).alive⟩
  · obtain ⟨hd, hkept⟩ := mem_filter.mp hd
    exact ((hserved.queued d hd).polled (hrow d hd)).2 (by simpa [turn] using hkept)

/-- One index for two requests; the first is seen to succeed before its write. -/
theorem first_tokens_own_reused : ∃ s, Reachable step (· = create 1)
      (fun s e => s.NewRoom e ∧ s.SeesOwnRow e) s ∧ s.popped.map (·.outputIds) = [[7], [8]] ∧
    ∀ d ∈ s.popped, d.Answered :=
  exists_reachable_imp rfl
    [.alloc 1 7 false 0, .status 0 .success, .popTransferred none, .setBuf 0, .popTransferred none,
      .alloc 2 8 false 0, .setBuf 0, .status 0 .success, .popTransferred none]
    (by decide +kernel) fun _ hs hpopped => ⟨hpopped, (first_tokens_own hs).1⟩

/-- The second request of a row is seen to succeed before its write, finds the room of the first and
is aborted. -/
theorem late_write_aborts : ∃ s, Reachable step (· = create 1) NewRoom s ∧
    s.popped.map (fun d => (d.outputIds, d.aborted, d.poll)) =
      [([7], false, .success), ([], true, .success)] :=
  exists_reachable rfl
    [.alloc 1 7 false 0, .setBuf 0, .status 0 .success, .popTransferred none, .alloc 2 8 false 0,
      .status 0 .success, .popTransferred none] (by decide +kernel)

/-- Every new request has a prefill server, which samples the first token of its room. -/
def samples (first : ℤ → Token) : TransferEvent → Bool
  | .alloc room token fake _ => !fake && token == first room
  | _ => true

/-- A request of the queue has got nothing yet. -/
def Pending (first : ℤ → Token) (d : DecodeRequest) : Prop :=
  d.fake = false ∧ d.firstToken = first d.bootstrapRoom ∧ d.outputIds = [] ∧ d.aborted = false

/-- A row that is in use holds the first token of its room. -/
def Filled (first : ℤ → Token) (row : MetadataRow) : Prop :=
  row.bootstrapRoom ≠ 0 → row.outputId = first row.bootstrapRoom

/-- What the check of the room preserves: nobody has left with the token of another. -/
structure Checked (first : ℤ → Token) (s : TransferState) : Prop where
  rows : ∀ i, Filled first (s.buffers i)
  queued : ∀ d ∈ s.queue, Pending first d
  popped : ∀ d ∈ s.popped, d.outputIds = if d.aborted then [] else [d.firstToken]

variable {first : ℤ → Token}

theorem Pending.polled {d d' : DecodeRequest} {row : MetadataRow}
    (h : Pending first d) (hrow : Filled first row) (hpolled : d.polled row = some d') :
    d'.outputIds = if d'.aborted then [] else [d'.firstToken] := by
  obtain ⟨hfake, htoken, hnil, halive⟩ := h
  unfold DecodeRequest.polled at hpolled
  split at hpolled
  · cases hpolled
    exact hnil
  · rw [DecodeRequest.commitTransferToReq, hfake, if_neg Bool.false_ne_true] at hpolled
    split_ifs at hpolled with hunused hother <;> cases hpolled
    · exact hnil
    · -- the room of the row is that of the request, and so is the token
      simp [hnil, halive, hrow hunused, not_not.mp hother, htoken]
  all_goals cases hpolled

/-- Nobody leaves the queue with the token of another. -/
theorem Checked.step {e : TransferEvent} (h : s.Checked first)
    (he : samples first e) (hstep : s.step e = .ok t) : t.Checked first := by
  have hmodify {idx : ℕ} {f : DecodeRequest → DecodeRequest}
      (hf : ∀ d, Pending first d → Pending first (f d)) :
      ∀ d ∈ s.modify idx f, Pending first d := by
    intro x hx
    obtain ⟨d, hd, rfl⟩ := mem_map.mp hx
    split
    · exact hf d (h.queued d hd)
    · exact h.queued d hd
  cases e with
  | alloc room token fake idx =>
    simp only [TransferState.step] at hstep
    split at hstep <;> cases hstep
    · refine { h with queued := fun d hd => ?_ }
      rcases mem_append.mp hd with hd | hd
      · exact h.queued d hd
      · rw [mem_singleton.mp hd]
        simpa [Pending, samples] using he
    · exact h
  | status idx poll =>
    cases hstep
    exact { h with queued := hmodify fun _ => id }
  | setBuf idx =>
    simp only [TransferState.step] at hstep
    split at hstep <;> cases hstep
    · exact h
    next d hfind =>
      obtain ⟨-, htoken, -⟩ := h.queued d (mem_of_find?_eq_some hfind)
      refine { h with rows := ?_, queued := hmodify fun _ => id }
      exact (Function.forall_update_iff _ fun _ => Filled first).mpr
        ⟨fun _ => htoken, fun i _ => h.rows i⟩
  | popTransferred rids =>
    cases hstep
    refine ⟨h.rows, fun d hd => h.queued d (mem_filter.mp hd).1, fun d' hd' => ?_⟩
    rcases mem_append.mp hd' with hd' | hd'
    · exact h.popped d' hd'
    obtain ⟨d, hd, hturn⟩ := mem_filterMap.mp hd'
    unfold turn at hturn
    split at hturn
    · exact (h.queued d hd).polled (h.rows _) hturn
    · cases hturn

/-- Whenever a success is seen, a request leaves the queue with its own first token, or aborted and
without any: the room tells a row that is not its own. -/
theorem no_foreign_token (h : Reachable step (· = create size) (fun _ e => samples first e) s) :
    ∀ d ∈ s.popped, d.outputIds = if d.aborted then [] else [d.firstToken] := by
  have hchecked : s.Checked first := by
    refine h.invariant ?_ fun s e t hs he hstep => hs.step he hstep
    rintro s rfl
    constructor <;> simp [create, Filled]
  exact hchecked.popped

theorem no_foreign_token_late :
    ∃ s, Reachable step (· = create 1) (fun _ e => samples (· + 6) e) s ∧
      s.popped.map (·.aborted) = [false, true] ∧
      ∀ d ∈ s.popped, d.outputIds = if d.aborted then [] else [d.firstToken] :=
  exists_reachable_imp rfl
    [.alloc 1 7 false 0, .setBuf 0, .status 0 .success, .popTransferred none, .alloc 2 8 false 0,
      .status 0 .success, .popTransferred none] (by decide +kernel)
    fun _ hs hpopped => ⟨hpopped, no_foreign_token hs⟩

end TransferState

end LLM42.Disaggregation
