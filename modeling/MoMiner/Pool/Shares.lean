import MoMiner.Lib.Run
import MoMiner.Pool.Connection

/-!
# Counting share responses

Every response to an outstanding share moves one of the two share counters by one, provided that
the pool still speaks the dialect family the share was written in. A `mo-native` pool may switch
to Iron Fish or to Cortex between a submission and its response; the response is then read by the
new dialect, which ignores it.

The invariant of a connection is that the pending count and the counted responses add up to the
submissions, and that the Cortex ids increase past 72 and skip 100.

Main result: `share_responses_counted_once`.
-/

namespace MoMiner.Pool

open MoMiner.Js

/-! ## Cortex ids -/

/-- The values that the Cortex counter takes. -/
structure CortexCounter (k : ℕ) : Prop where
  ge : 72 ≤ k
  ne : k ≠ 100
  le : k ≤ maxSafeInteger

theorem nextCortexSubmitId_spec {k id : ℕ} (hk : CortexCounter k)
    (h : nextCortexSubmitId k = some id) : CortexCounter id ∧ k < id := by
  have := hk.ge
  have := hk.le
  have h101 : 101 ≤ maxSafeInteger := by decide
  unfold nextCortexSubmitId at h
  split_ifs at h with hmax h100
  · cases h
    exact ⟨⟨by omega, by omega, h101⟩, by omega⟩
  · cases h
    exact ⟨⟨by omega, h100, by omega⟩, by omega⟩

/-! ## The invariant of a connection -/

/-- What holds of every state of a connection. -/
structure Connection.Inv (c : Connection) : Prop where
  counted : c.pool.session.pendingSubmitCount + c.consumed = c.written
  counter : CortexCounter c.cortexSubmitId
  increasing : c.cortexIds.Pairwise (· < ·)
  issued : ∀ n ∈ c.cortexIds, 72 < n ∧ n ≠ 100 ∧ n ≤ c.cortexSubmitId
  pending : ∀ n ∈ c.pool.session.pendingCortexSubmitIds, n ∈ c.cortexIds

namespace Connection

variable {host : Host} {c c' : Connection} {message json : Json} {random : String}

theorem Inv.of_account (h : c.Inv) {s : Session} (hs : s.account = c.pool.session.account) :
    (c.withSession s).Inv := by
  simp only [Session.account, Prod.mk.injEq] at hs
  obtain ⟨-, -, hcount, hids⟩ := hs
  have hcounted : s.pendingSubmitCount + c.consumed = c.written := hcount ▸ h.counted
  exact ⟨hcounted, h.counter, h.increasing, h.issued, fun n hn => h.pending n (hids ▸ hn)⟩

theorem Inv.write (h : c.Inv) (json : Json) : (c.write host json).Inv := by
  have hcounted := h.counted
  refine ⟨?_, h.counter, h.increasing, h.issued, ?_⟩
  · simp only [Connection.write, poolWrite, withSession]
    by_cases hsock : c.pool.session.socket.isSome
    · by_cases hsub : isSubmission json
      · simp only [hsock, hsub, Session.write, and_self, if_true]
        omega
      · simpa [hsock, hsub, Session.write] using hcounted
    · simpa [hsock] using hcounted
  · simp only [Connection.write, poolWrite, withSession]
    split_ifs <;> exact h.pending

theorem Inv.next (h : c.Inv) : CortexCounter
    ((nextCortexSubmitId c.cortexSubmitId).getD c.cortexSubmitId) ∧
    c.cortexSubmitId ≤ (nextCortexSubmitId c.cortexSubmitId).getD c.cortexSubmitId := by
  cases hid : nextCortexSubmitId c.cortexSubmitId with
  | none => exact ⟨h.counter, le_refl _⟩
  | some id =>
    obtain ⟨hcounter, hlt⟩ := nextCortexSubmitId_spec h.counter hid
    exact ⟨hcounter, hlt.le⟩

/-- A Cortex submission takes an id above all earlier ones. -/
theorem Inv.issue (h : c.Inv) {id : ℕ} (hid : nextCortexSubmitId c.cortexSubmitId = some id) :
    (c.issue id).Inv := by
  obtain ⟨hcounter, hlt⟩ := nextCortexSubmitId_spec h.counter hid
  refine ⟨h.counted, hcounter, ?_, ?_, ?_⟩
  · refine List.pairwise_append.mpr ⟨h.increasing, List.pairwise_singleton _ _, ?_⟩
    intro n hn m hm
    rw [List.mem_singleton] at hm
    exact hm ▸ (h.issued n hn).2.2.trans_lt hlt
  · intro n hn
    rcases List.mem_append.mp hn with hn | hn
    · obtain ⟨h72, h100, hle⟩ := h.issued n hn
      exact ⟨h72, h100, hle.trans hlt.le⟩
    · rw [List.mem_singleton] at hn
      subst hn
      exact ⟨h.counter.ge.trans_lt hlt, hcounter.ne, le_refl _⟩
  · intro n hn
    rcases List.mem_append.mp hn with hn | hn
    · exact List.mem_append_left _ (h.pending n hn)
    · exact List.mem_append_right _ hn

theorem Inv.cortexShare (h : c.Inv) {params : Json} : (c.cortexShare host params).Inv := by
  unfold Connection.cortexShare
  split
  · exact h
  · next id hid =>
    simp only [cortexRequestId, Option.ite_none_left_eq_some] at hid
    exact (h.issue hid.2).write _

theorem Inv.pending_gt (h : c.Inv) : ∀ n ∈ c.pool.session.pendingCortexSubmitIds, 72 < n :=
  fun n hn => (h.issued n (h.pending n hn)).1

/-- The history that a reply adds up to. -/
theorem Inv.receive (h : c.Inv) (hstep : c.receive host message random = some c') : c'.Inv := by
  unfold Connection.receive at hstep
  split at hstep
  · cases hstep
  · next r' hr' =>
    cases hstep
    obtain ⟨r, last, job, hr, rfl⟩ := receivedReply_eq_ok hr'
    have hcounted := h.counted
    rcases poolMessage_cases hr with hun | ⟨henv, hsettled⟩
    · -- nothing was crossed off, so nothing with the id 3 was counted
      obtain ⟨-, -, hcount, hids⟩ := by
        simpa only [Session.account, Prod.mk.injEq] using hun.account
      have hnot : ¬(r.share.isSome ∧ isSubmitResponse message ∧
          poolProtocol host c.pool.config c.pool.session ≠ .ironfish) := by
        rintro ⟨hshare, hresp, hiron⟩
        simp only [isSubmitResponse, Bool.and_eq_true] at hresp
        rcases poolMessage_unsettled_share hresp.1 hresp.2 hiron hr with hnone | hset
        · simp [hnone] at hshare
        · obtain ⟨s', hs', hacc⟩ := hset.settles
          rw [hun.account] at hacc
          simp only [Session.account, Prod.mk.injEq] at hacc
          cases hs' with
          | submission _ _ _ hp => exact absurd hacc.2.2.1 (by simp only; omega)
          | @cortex n _ hid _ _ _ hn =>
            have := h.pending_gt n hn
            exact absurd (isNumber_unique hid hresp.2) (by omega)
      refine ⟨?_, h.counter, h.increasing, h.issued, ?_⟩
      · simpa [Connection.replied, if_neg hnot, hcount] using hcounted
      · simpa [Connection.replied, hids] using h.pending
    · obtain ⟨s', hs', hacc⟩ := hsettled.settles
      obtain ⟨accepted, hshare⟩ := hsettled.share
      rw [responseEnvelope_normalized] at henv
      obtain ⟨-, -, hcount, hids⟩ := by
        simpa only [Session.account, Prod.mk.injEq] using hacc
      cases hs' with
      | submission hc hi hid hp =>
        have hyes : r.share.isSome ∧ isSubmitResponse message ∧
            poolProtocol host c.pool.config c.pool.session ≠ .ironfish :=
          ⟨by simp [hshare], by simpa [isSubmitResponse, henv, idIs] using hid, hi⟩
        refine ⟨?_, h.counter, h.increasing, h.issued, ?_⟩
        · simp only [Connection.replied, if_pos hyes, countShare_session, hcount]
          omega
        · simpa [Connection.replied, hids] using h.pending
      | @cortex n hc hid hmax h72 h100 hn =>
        have hnot : ¬(r.share.isSome ∧ isSubmitResponse message ∧
            poolProtocol host c.pool.config c.pool.session ≠ .ironfish) := by
          rintro ⟨-, hresp, -⟩
          simp only [isSubmitResponse, Bool.and_eq_true] at hresp
          have := h.pending_gt n hn
          exact absurd (isNumber_unique hid hresp.2) (by omega)
        refine ⟨?_, h.counter, h.increasing, h.issued, ?_⟩
        · simpa [Connection.replied, if_neg hnot, hcount] using hcounted
        · intro m hm
          simp only [Connection.replied, countShare_session, hids] at hm
          exact h.pending m (List.mem_of_mem_erase hm)

theorem Inv.step (h : c.Inv) {e : ConnectionEvent} (hstep : c.step host e = some c') :
    c'.Inv := by
  cases e with
  | connected =>
    cases hstep
    exact h.of_account (handlePoolConnect_account _ _ _)
  | write json =>
    cases hstep
    exact h.write json
  | cortexShare params =>
    cases hstep
    exact h.cortexShare
  | cortexElsewhere =>
    cases hstep
    obtain ⟨hcounter, hle⟩ := h.next
    exact ⟨h.counted, hcounter, h.increasing, fun n hn =>
      ⟨(h.issued n hn).1, (h.issued n hn).2.1, (h.issued n hn).2.2.trans hle⟩, h.pending⟩
  | receive message random => exact h.receive hstep

theorem inv_open {pool : MoMiner.Pool} {socket k : ℕ} (hk : CortexCounter k) :
    (Connection.open pool socket k).Inv :=
  ⟨rfl, hk, .nil, by simp [Connection.open, Connection.onPool],
    by simp [Connection.open, Connection.onPool, MoMiner.Pool.clearConnection, Session.connect]⟩

/-! ## Responses to outstanding submissions -/

/-- The runs of a connection from the moment its socket is opened. -/
def Runs (host : Host) (pool : MoMiner.Pool) (socket k : ℕ) : List ConnectionEvent → Connection →
    Prop :=
  Run (fun c e c' => c.step host e = some c') (Connection.open pool socket k)

/-- A message answers an outstanding submission: it has the id 3 while such a submission is
pending, or the id of a pending Cortex share. -/
def Answers (c : Connection) (message : Json) : Prop :=
  responseEnvelope message ∧
    ((idIs (normalizedResponse message) 3 ∧ 0 < c.pool.session.pendingSubmitCount) ∨
      ∃ n ∈ c.pool.session.pendingCortexSubmitIds, idIs (normalizedResponse message) n)

instance (c : Connection) (message : Json) : Decidable (c.Answers message) := by
  unfold Answers
  infer_instance

/-- The pool's dialect when an answer arrives is still one that takes it: neither Iron Fish nor
Cortex for the id 3, Cortex for a Cortex id. -/
def Understood (host : Host) (c : Connection) (message : Json) : Prop :=
  let dialect := poolProtocol host c.pool.config c.pool.session
  if idIs (normalizedResponse message) 3 then dialect ≠ .cortex ∧ dialect ≠ .ironfish
  else dialect = .cortex

instance (host : Host) (c : Connection) (message : Json) :
    Decidable (c.Understood host message) := by
  unfold Understood
  infer_instance

/-- Exactly one of the two share counters moves, by one. -/
def CountedOnce (c c' : Connection) : Prop :=
  (c'.pool.goodShares = c.pool.goodShares + 1 ∧ c'.pool.badShares = c.pool.badShares) ∨
  (c'.pool.goodShares = c.pool.goodShares ∧ c'.pool.badShares = c.pool.badShares + 1)

instance (c c' : Connection) : Decidable (c.CountedOnce c') := by
  unfold CountedOnce
  infer_instance

/-- Neither share counter moves. -/
def Uncounted (c c' : Connection) : Prop :=
  c'.pool.goodShares = c.pool.goodShares ∧ c'.pool.badShares = c.pool.badShares

theorem Inv.settles (h : c.Inv) (ha : c.Answers message) (hu : c.Understood host message) :
    ∃ s', Settles host c.pool.config c.pool.session ((normalizedResponse message).get? "id") s' := by
  obtain ⟨-, ⟨hid, hp⟩ | ⟨n, hn, hid⟩⟩ := ha
  · simp only [Understood, hid, if_true] at hu
    exact ⟨_, .submission hu.1 hu.2 hid hp⟩
  · obtain ⟨h72, h100, hle⟩ := h.issued n (h.pending n hn)
    simp only [Understood, idIs_eq_false hid (show n ≠ 3 by omega)] at hu
    exact ⟨_, .cortex hu hid (hle.trans h.counter.le) (by omega) h100 hn⟩

theorem Inv.answer_counted (h : c.Inv) (ha : c.Answers message)
    (hu : c.Understood host message) :
    ∃ c', c.step host (.receive message random) = some c' ∧ c.CountedOnce c' := by
  obtain ⟨s', hs'⟩ := h.settles ha hu
  obtain ⟨accepted, hr⟩ : ∃ accepted, poolMessage host c.pool.config random c.pool.session
      message = .ok { session := s', share := some accepted } :=
    poolMessage_settles ha.1 hs' h.pending_gt
  have hreceived := receivedReply_of_no_job hr rfl
  refine ⟨c.replied host message _, by rw [Connection.step, Connection.receive, hreceived], ?_⟩
  cases accepted with
  | true => exact .inl ⟨rfl, rfl⟩
  | false => exact .inr ⟨rfl, rfl⟩

theorem other_uncounted {e : ConnectionEvent} (hstep : c.step host e = some c')
    (hother : ∀ message random, e = .receive message random → ¬c.Answers message)
    (hd : ¬(poolProtocol host c'.pool.config c'.pool.session).reportsByMethod) :
    c.Uncounted c' := by
  cases e with
  | connected =>
    cases hstep
    exact ⟨rfl, rfl⟩
  | write json =>
    cases hstep
    exact ⟨rfl, rfl⟩
  | cortexShare params =>
    cases hstep
    unfold Connection.cortexShare
    split <;> exact ⟨rfl, rfl⟩
  | cortexElsewhere =>
    cases hstep
    exact ⟨rfl, rfl⟩
  | receive message random =>
    simp only [Connection.step, Connection.receive] at hstep
    split at hstep
    · cases hstep
    · next r' hr' =>
      cases hstep
      obtain ⟨r, last, job, hr, rfl⟩ := receivedReply_eq_ok hr'
      rcases poolMessage_cases hr with hun | ⟨henv, hsettled⟩
      · have hnone : r.share = none := by
          rw [Option.eq_none_iff_forall_ne_some]
          intro share hs
          refine hd ?_
          have hshare := hun.share (by simp [hs])
          simp only [Connection.replied, countShare_config, countShare_session,
            poolProtocol_lastJob]
          exact hshare
        simp only [Uncounted, Connection.replied, hnone]
        exact ⟨rfl, rfl⟩
      · rw [responseEnvelope_normalized] at henv
        obtain ⟨s', hs', -⟩ := hsettled.settles
        refine absurd ⟨henv, ?_⟩ (hother message random rfl)
        cases hs' with
        | submission _ _ hid hp => exact .inl ⟨hid, hp⟩
        | @cortex n _ hid _ _ _ hn => exact .inr ⟨n, hn, hid⟩

end Connection

open Connection

/-- **Share responses are counted exactly once.** In every state of every run of a connection,
whatever is written, submitted and received in whatever order:

* an answer to an outstanding submission that the pool's current dialect understands moves
  exactly one share counter by one;
* nothing else moves them, unless the dialect reports shares by method;
* the pending count and the counted responses add up to the submissions written;
* the Cortex ids are distinct, and none is 72 or 100. -/
theorem share_responses_counted_once {host : Host} {pool : MoMiner.Pool} {socket k : ℕ}
    {es : List ConnectionEvent} {c : Connection} (hk : CortexCounter k)
    (h : Runs host pool socket k es c) :
    (∀ message random, c.Answers message → c.Understood host message →
      ∃ c', c.step host (.receive message random) = some c' ∧ c.CountedOnce c') ∧
    (∀ e c', c.step host e = some c' →
      (∀ message random, e = .receive message random → ¬c.Answers message) →
      ¬(poolProtocol host c'.pool.config c'.pool.session).reportsByMethod → c.Uncounted c') ∧
    c.pool.session.pendingSubmitCount + c.consumed = c.written ∧
    c.cortexIds.Nodup ∧ ∀ n ∈ c.cortexIds, n ≠ 72 ∧ n ≠ 100 := by
  have hinv : c.Inv := Run.invariant h (inv_open hk) fun _ _ _ hi hs => hi.step hs
  refine ⟨fun _ _ ha hu => hinv.answer_counted ha hu,
    fun _ _ hstep hother hd => other_uncounted hstep hother hd, hinv.counted,
    hinv.increasing.imp ne_of_lt, fun n hn => ?_⟩
  obtain ⟨h72, h100, -⟩ := hinv.issued n hn
  exact ⟨by omega, h100⟩

/-! ## A response lost to a family switch -/

def exampleShare : Json := request (.num 3) "submit" (.obj [("job_id", .str "a")])

/-- A job of the Iron Fish family. -/
def exampleFishhashJob : Json :=
  .obj [("method", .str "job"), ("params", .obj [("algo", .str "fishhash"), ("job_id", .str "b"),
    ("blob", .str (repeatChar 64 '0')), ("target", .str (repeatChar 64 'f'))])]

def exampleAccepted : Json :=
  .obj [("id", .num 3), ("error", .null), ("result", .obj [("status", .str "OK")])]

/-- Login, share, then a job of another family, all before the share is answered. -/
def exampleSwitch : List ConnectionEvent :=
  [.connected, .receive exampleLogin "", .write exampleShare, .receive exampleFishhashJob ""]

/-- The switch makes the pool deaf to the answer of the share it has written. -/
theorem share_response_lost_after_switch :
    Runs exampleHost examplePool 0 72 exampleSwitch (exampleAfter exampleSwitch) ∧
    (exampleAfter exampleSwitch).Answers exampleAccepted ∧
    (exampleAfter exampleSwitch).step exampleHost (.receive exampleAccepted "") =
      some (exampleAfter (exampleSwitch ++ [.receive exampleAccepted ""])) ∧
    ¬(exampleAfter exampleSwitch).CountedOnce
      (exampleAfter (exampleSwitch ++ [.receive exampleAccepted ""])) := by
  have h : (exampleSwitch.foldlM (Connection.step exampleHost)
        (Connection.open examplePool 0 72)).isSome ∧
      ((exampleSwitch ++ [ConnectionEvent.receive exampleAccepted ""]).foldlM
        (Connection.step exampleHost) (Connection.open examplePool 0 72)).isSome ∧
      (exampleAfter exampleSwitch).Answers exampleAccepted ∧
      ¬(exampleAfter exampleSwitch).CountedOnce
        (exampleAfter (exampleSwitch ++ [.receive exampleAccepted ""])) := by
    decide +kernel
  obtain ⟨hbefore, hafter, hanswers, hlost⟩ := h
  have hrun : Runs exampleHost examplePool 0 72 exampleSwitch (exampleAfter exampleSwitch) :=
    Run.of_isSome hbefore _
  exact ⟨hrun, hanswers, Run.step_of_isSome hafter (Connection.open examplePool 0 72), hlost⟩

/-- The same share is counted when its answer comes before the switch. -/
theorem share_responses_counted_once_example :
    (exampleAfter (exampleSwitch.take 3)).Answers exampleAccepted ∧
    ∃ c', (exampleAfter (exampleSwitch.take 3)).step exampleHost (.receive exampleAccepted "") =
      some c' ∧ (exampleAfter (exampleSwitch.take 3)).CountedOnce c' := by
  have h : ((exampleSwitch.take 3).foldlM (Connection.step exampleHost)
        (Connection.open examplePool 0 72)).isSome ∧
      (exampleAfter (exampleSwitch.take 3)).Answers exampleAccepted ∧
      (exampleAfter (exampleSwitch.take 3)).Understood exampleHost exampleAccepted := by
    decide +kernel
  have hrun : Runs exampleHost examplePool 0 72 (exampleSwitch.take 3)
      (exampleAfter (exampleSwitch.take 3)) := Run.of_isSome h.1 _
  exact ⟨h.2.1, (share_responses_counted_once ⟨by decide, by decide, by decide⟩ hrun).1 _ _
    h.2.1 h.2.2⟩

end MoMiner.Pool
