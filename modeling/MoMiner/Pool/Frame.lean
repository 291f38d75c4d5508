import MoMiner.Pool.Messages

/-!
# What a message leaves alone

The socket, the last job and the outstanding submissions of a session form its `account`. A
message changes the account in one way only: a share response crosses its submission off. All
other handlers write handshake flags, negotiated names and job state.

Main result: `poolMessage_cases`.
-/

namespace MoMiner.Pool

open MoMiner.Js

/-- The socket, the last job and the outstanding submissions. -/
def Session.account (s : Session) : Option ℕ × Option PoolJob × ℕ × List ℕ :=
  (s.socket, s.lastJob, s.pendingSubmitCount, s.pendingCortexSubmitIds)

/-- The account and the pending controls. -/
def Session.kept (s : Session) := (s.account, s.pendingControls)

variable {host : Host} {config : PoolConfig} {random : String} {s s' : Session} {json : Json}
  {resume : Session → Json → Except String Reply} {r : Reply}

/-! ## Shapes of messages -/

theorem methodIs_eq_false {name : String} (h : (json.text? "method").isNone) :
    json.methodIs name = false := by
  unfold Json.methodIs
  cases hm : json.get? "method" with
  | none => rfl
  | some m => cases m <;> simp_all [Json.text?, Json.str?, Json.isText]

theorem control?_of_no_method (h : (json.text? "method").isNone) : control? json = none := by
  unfold control?
  split <;> simp [methodIs_eq_false h]

theorem isAnnouncement_of_no_method (h : (json.text? "method").isNone) :
    isAnnouncement json = false := by
  simp [isAnnouncement, methodIs_eq_false h]

theorem responseEnvelope_no_method (h : responseEnvelope json) :
    (json.text? "method").isNone := by
  simp only [responseEnvelope, Bool.and_eq_true] at h
  exact h.1.1

/-- An announcement is not a response. -/
theorem responseEnvelope_of_announcement (h : isAnnouncement json) :
    responseEnvelope json = false := by
  rw [Bool.eq_false_iff]
  intro henv
  simp [isAnnouncement_of_no_method (responseEnvelope_no_method henv)] at h

theorem normalizedResponse_get? {key : String} (h : key ≠ "id") :
    (normalizedResponse json).get? key = json.get? key := by
  unfold normalizedResponse
  split
  · split_ifs
    · exact Json.get?_set_of_ne h _ _
    · rfl
  · rfl

theorem normalizedResponse_text? {key : String} (h : key ≠ "id") :
    (normalizedResponse json).text? key = json.text? key := by
  simp only [Json.text?, normalizedResponse_get? h]

theorem normalizedResponse_of_method (h : (json.text? "method").isSome) :
    normalizedResponse json = json := by
  obtain ⟨m, hm⟩ := Option.isSome_iff_exists.mp h
  simp [normalizedResponse, responseEnvelope, hm]

/-! ## Handlers that keep the account -/

@[simp] theorem rememberPoolProtocol_kept (result : Json) :
    (rememberPoolProtocol host config s result).kept = s.kept := by
  simp only [rememberPoolProtocol]
  split_ifs <;> rfl

@[simp] theorem applyLoginExtensions_kept (extensions : Option Json) :
    (applyLoginExtensions s extensions).kept = s.kept := by
  unfold applyLoginExtensions
  split <;> rfl

@[simp] theorem rememberWorkerId_kept (id : Option Json) :
    (rememberWorkerId s id).kept = s.kept := by
  unfold rememberWorkerId
  split
  · rfl
  · split_ifs <;> rfl
  · rfl

@[simp] theorem leaveFamily_kept (algo : String) :
    (leaveFamily s algo).kept = s.kept := by
  unfold leaveFamily
  split
  · split_ifs <;> rfl
  · rfl

theorem preparePoolFamily_kept {algo : String} (h : preparePoolFamily s algo = .ok s') :
    s'.kept = s.kept := by
  unfold preparePoolFamily at h
  split_ifs at h
  cases h
  exact leaveFamily_kept algo

theorem assignedFamily_kept {algo : Option String} (h : assignedFamily s algo = .ok s') :
    s'.kept = s.kept := by
  unfold assignedFamily at h
  split at h
  · split_ifs at h
    · exact preparePoolFamily_kept h
    · cases h
      rfl
  · cases h
    rfl

theorem rememberPoolResponseMetadata_kept {result : Option Json}
    (h : rememberPoolResponseMetadata host config s result = .ok s') :
    s'.kept = s.kept := by
  unfold rememberPoolResponseMetadata at h
  split at h
  · cases h
    rfl
  · simp only [Except.bind_eq_ok] at h
    obtain ⟨algo, -, s₁, h₁, job, -, h₂⟩ := h
    cases h₂
    rw [rememberPoolProtocol_kept]
    have h := assignedFamily_kept h₁
    rw [applyLoginExtensions_kept, rememberWorkerId_kept] at h
    exact h

theorem poolControl_account {control : Control}
    (h : poolControl host config s json control = .ok s') : s'.account = s.account := by
  unfold poolControl at h
  split_ifs at h
  · obtain ⟨job, -, h⟩ := Except.bind_eq_ok.mp h
    cases h
    rfl
  · obtain ⟨algo, -, h⟩ := Except.bind_eq_ok.mp h
    split_ifs at h <;> cases h <;> rfl

/-- A native announcement keeps the account and the method of its message. -/
theorem nativeAnnouncement_account {json' : Json}
    (h : nativeAnnouncement host config s json = .ok (s', json')) :
    s'.account = s.account ∧ json'.get? "method" = json.get? "method" := by
  unfold nativeAnnouncement at h
  obtain ⟨marker, -, h⟩ := Except.bind_eq_ok.mp h
  split at h
  · cases h
  · simp only [Except.bind_eq_ok] at h
    obtain ⟨s₁, h₁, job, -, h₂⟩ := h
    cases h₂
    have h := congrArg Prod.fst (preparePoolFamily_kept h₁)
    exact ⟨h, Json.get?_set_of_ne (by decide) _ _⟩

@[simp] theorem workReceived_kept :
    (workReceived host config s json).kept = s.kept := by
  unfold workReceived
  split_ifs <;> rfl

theorem jobDecoded_kept {recorded : Recorded}
    (h : jobDecoded host config s json recorded = .ok s') : s'.kept = s.kept := by
  unfold jobDecoded at h
  split_ifs at h
  · rw [rememberPoolResponseMetadata_kept h, workReceived_kept]
    rfl
  · cases h
    rw [workReceived_kept]
    rfl

/-! ## Responses -/

theorem isSubmission_request (id : Json) (method : String) (params : Json) :
    isSubmission (request id method params) =
      (id.isNumber 3 && (method = "mining.submit" || method = "submit")) := by
  simp [isSubmission, request, idIs, Json.methodIs, Json.get?, List.lookup_cons, Json.isText]

theorem poolWrite_account (h : isSubmission json = false) :
    (poolWrite host config s json).session.account = s.account := by
  unfold poolWrite
  split_ifs
  · simp [Session.write, Session.account, h]
  · rfl

theorem handleLoginResponse_account (ok : Bool) :
    (handleLoginResponse host config s ok).session.account = s.account := by
  have hwork : isSubmission (request (.num 100) "ctxc_getWork" (.arr [.str ""])) = false := by
    simp [isSubmission_request]
  simp only [handleLoginResponse]
  split_ifs <;> first | rfl | exact poolWrite_account hwork

theorem handleSubscribeResponse_account (isErr isOk : Bool) (result : Option Json) :
    (handleSubscribeResponse host config s isErr isOk result).session.account = s.account := by
  simp only [handleSubscribeResponse]
  split_ifs <;> first | rfl | exact poolWrite_account (by simp [isSubmission_request])

/-- The dialects that report shares by method, not by response id. -/
def Dialect.reportsByMethod (d : Dialect) : Prop := d = .ironfish ∨ d = .beam

/-- A reply that settles no outstanding submission. -/
structure Unsettled (host : Host) (config : PoolConfig) (s : Session) (r : Reply) : Prop where
  account : r.session.account = s.account
  share : r.share.isSome → (poolProtocol host config r.session).reportsByMethod

theorem Unsettled.of_no_share (h : r.session.account = s.account) (hs : r.share = none) :
    Unsettled host config s r := ⟨h, by simp [hs]⟩

theorem poolWrite_share : (poolWrite host config s json).share = none := by
  unfold poolWrite
  split_ifs <;> rfl

theorem handleLoginResponse_share (ok : Bool) :
    (handleLoginResponse host config s ok).share = none := by
  simp only [handleLoginResponse]
  split_ifs <;> first | rfl | exact poolWrite_share

theorem handleSubscribeResponse_share (isErr isOk : Bool) (result : Option Json) :
    (handleSubscribeResponse host config s isErr isOk result).share = none := by
  simp only [handleSubscribeResponse]
  split_ifs <;> first | rfl | exact poolWrite_share

/-- Handling an announcement settles no submission. -/
def Resumes (host : Host) (config : PoolConfig) (resume : Session → Json → Except String Reply) :
    Prop :=
  ∀ s (json : Announcement) r, resume s json = .ok r → Unsettled host config s r

theorem releasePending_unsettled (hres : Resumes host config resume)
    (h : releasePending resume s = .ok r) : Unsettled host config s r := by
  unfold releasePending at h
  split at h
  · next json _ =>
    have := hres _ json r h
    exact ⟨this.account, this.share⟩
  · cases h
    exact .of_no_share rfl rfl

theorem handleAuthorizeResponse_unsettled {isErr : Bool} {result : Option Json}
    (hres : Resumes host config resume)
    (h : handleAuthorizeResponse resume s isErr result = .ok r) : Unsettled host config s r := by
  simp only [handleAuthorizeResponse] at h
  split_ifs at h
  · have := releasePending_unsettled hres h
    exact ⟨this.account, this.share⟩
  · cases h
    exact .of_no_share rfl rfl

theorem isNumber_iff {id : Option Json} {n : ℕ} :
    id.any (Json.isNumber n) ↔ id = some (.num (.finite n)) := by
  cases id with
  | none => simp
  | some j => cases j <;> simp [Json.isNumber]

theorem isNumber_unique {id : Option Json} {m n : ℕ} (hm : id.any (Json.isNumber m))
    (hn : id.any (Json.isNumber n)) : m = n := by
  rw [isNumber_iff] at hm hn
  simpa [hm] using hn

theorem idIs_eq_false {m n : ℕ} (h : idIs json n) (hne : n ≠ m) : idIs json m = false := by
  rw [Bool.eq_false_iff]
  exact fun hm => hne (isNumber_unique h hm)

theorem idNumber?_eq_some {id : Option Json} {n : ℕ} :
    idNumber? id = some n ↔ id.any (Json.isNumber n) ∧ n ≤ maxSafeInteger := by
  rw [isNumber_iff]
  cases id with
  | none => simp [idNumber?]
  | some j => cases j <;> simp [idNumber?, Json.num?, Number.safeNat?_eq_some]

/-- The session in which a response with a given id settles an outstanding submission. -/
inductive Settles (host : Host) (config : PoolConfig) (s : Session) (id : Option Json) :
    Session → Prop
  | submission (hc : poolProtocol host config s ≠ .cortex)
      (hi : poolProtocol host config s ≠ .ironfish) (hid : id.any (Json.isNumber 3))
      (hp : 0 < s.pendingSubmitCount) :
      Settles host config s id { s with pendingSubmitCount := s.pendingSubmitCount - 1 }
  | cortex {n : ℕ} (hc : poolProtocol host config s = .cortex) (hid : id.any (Json.isNumber n))
      (hmax : n ≤ maxSafeInteger) (h72 : n ≠ 72) (h100 : n ≠ 100)
      (hn : n ∈ s.pendingCortexSubmitIds) :
      Settles host config s id
        { s with pendingCortexSubmitIds := s.pendingCortexSubmitIds.erase n }

/-- The handshake handlers answer the ids 1 and 2 only. -/
theorem handshakeHandler_cases {id : Option Json} {handler : Handler}
    (h : handshakeHandler host config s id = some handler) :
    (id.any (Json.isNumber 1) ∧
      (handler = .login ∨ handler = .subscribe ∨ handler = .ignore)) ∨
    (id.any (Json.isNumber 2) ∧ (handler = .authorize ∨ handler = .ignore)) := by
  cases hf : id.any (Json.isNumber 1) with
  | true =>
    simp only [handshakeHandler, hf] at h
    grind
  | false =>
    cases hs : id.any (Json.isNumber 2) with
    | true =>
      simp only [handshakeHandler, hf, hs] at h
      grind
    | false =>
      simp only [handshakeHandler, hf, hs] at h
      grind

/-- A handler that settles nothing. -/
def Handler.Plain (handler : Handler) (id : Option Json) : Prop :=
  handler ≠ .share ∧ (handler = .authorize → id.any (Json.isNumber 2))

theorem cortexResponse_cases {id : Option Json} {handler : Handler}
    (hc : poolProtocol host config s = .cortex) (h : cortexResponse s id = (handler, s')) :
    (s' = s ∧ handler.Plain id) ∨ (handler = .share ∧ Settles host config s id s') := by
  unfold cortexResponse at h
  by_cases h72 : id.any (Json.isNumber 72)
  · rw [if_pos h72] at h
    cases h
    refine .inl ⟨rfl, ?_, ?_⟩ <;> split_ifs <;> simp
  by_cases h100 : id.any (Json.isNumber 100)
  · rw [if_neg h72, if_pos h100] at h
    cases h
    refine .inl ⟨rfl, ?_, ?_⟩ <;> split_ifs <;> simp
  rw [if_neg h72, if_neg h100] at h
  split at h
  · next n hn =>
    obtain ⟨hn, hmax⟩ := idNumber?_eq_some.mp hn
    split_ifs at h with hmem
    · cases h
      refine .inr ⟨rfl, .cortex hc hn hmax ?_ ?_ (by simpa using hmem)⟩
      · rintro rfl
        exact h72 hn
      · rintro rfl
        exact h100 hn
    · cases h
      exact .inl ⟨rfl, by simp, by simp⟩
  · cases h
    exact .inl ⟨rfl, by simp, by simp⟩

/-- **A response is handled without touching the session, or settles a submission.** -/
theorem poolResponseHandler_cases {id : Option Json} {handler : Handler}
    (h : poolResponseHandler host config s id = (handler, s')) :
    (s' = s ∧ handler.Plain id) ∨ (handler = .share ∧ Settles host config s id s') := by
  unfold poolResponseHandler at h
  split_ifs at h with hid hcortex hiron
  · cases h
    exact .inl ⟨rfl, by simp, by simp⟩
  · exact cortexResponse_cases hcortex h
  · cases h
    exact .inl ⟨rfl, by simp, by simp⟩
  · split at h
    · next handler' hh =>
      cases h
      refine .inl ⟨rfl, ?_⟩
      rcases handshakeHandler_cases hh with ⟨-, rfl | rfl | rfl⟩ | ⟨h2, rfl | rfl⟩
      · exact ⟨by simp, by simp⟩
      · exact ⟨by simp, by simp⟩
      · exact ⟨by simp, by simp⟩
      · exact ⟨by simp, fun _ => h2⟩
      · exact ⟨by simp, by simp⟩
    · unfold submitResponse at h
      split_ifs at h with h3
      · cases h
        simp only [Bool.and_eq_true, decide_eq_true_eq] at h3
        exact .inr ⟨rfl, .submission hcortex hiron h3.1 h3.2⟩
      · cases h
        exact .inl ⟨rfl, by simp, by simp⟩

/-- A response settles a submission exactly when one with its id is outstanding. -/
theorem poolResponseHandler_of_settles {id : Option Json} (h : Settles host config s id s') :
    poolResponseHandler host config s id = (.share, s') := by
  have hresp : ∀ {n : ℕ}, id.any (Json.isNumber n) → n ≤ maxSafeInteger → isResponseId id := by
    intro n hid hn
    rw [isNumber_iff.mp hid]
    simp [isResponseId, Number.safe?, hn]
  unfold poolResponseHandler
  cases h with
  | submission hc hi hid hp =>
    have hnone : handshakeHandler host config s id = none := by
      rw [Option.eq_none_iff_forall_ne_some]
      intro handler hh
      rcases handshakeHandler_cases hh with ⟨h1, -⟩ | ⟨h2, -⟩
      · exact absurd (isNumber_unique h1 hid) (by decide)
      · exact absurd (isNumber_unique h2 hid) (by decide)
    simp [hresp hid (by decide), hc, hi, hnone, submitResponse, hid, hp]
  | @cortex n hc hid hmax h72 h100 hn =>
    have hne : ∀ {m : ℕ}, n ≠ m → ¬id.any (Json.isNumber m) := fun hm h =>
      hm (isNumber_unique hid h)
    rw [if_neg (by simp [hresp hid hmax]), if_pos hc, cortexResponse, if_neg (hne h72),
      if_neg (hne h100), idNumber?_eq_some.mpr ⟨hid, hmax⟩]
    simp [hn]

/-- The reply to a share response. -/
structure Settled (host : Host) (config : PoolConfig) (s : Session) (json : Json) (r : Reply) :
    Prop where
  settles : ∃ s', Settles host config s (json.get? "id") s' ∧ r.session.account = s'.account
  share : ∃ accepted, r.share = some accepted

/-- Only authorization can lead to a share, by releasing an announcement. -/
theorem runHandler_unsettled {handler : Handler} (hres : Resumes host config resume)
    (hs : handler ≠ .share) (h : runHandler host config resume handler s json = .ok r) :
    Unsettled host config s r ∧ (handler ≠ .authorize → r.share = none) := by
  have hquiet : r.session.account = s.account → r.share = none →
      Unsettled host config s r ∧ (handler ≠ .authorize → r.share = none) :=
    fun hr hs => ⟨.of_no_share hr hs, fun _ => hs⟩
  cases handler with
  | login =>
    cases h
    exact hquiet (handleLoginResponse_account _) (handleLoginResponse_share _)
  | subscribe =>
    cases h
    exact hquiet (handleSubscribeResponse_account _ _ _) (handleSubscribeResponse_share _ _ _)
  | authorize => exact ⟨handleAuthorizeResponse_unsettled hres h, by simp⟩
  | cortexWork =>
    cases h
    exact hquiet rfl rfl
  | share => exact absurd rfl hs
  | ignore =>
    cases h
    exact hquiet rfl rfl

/-- A response settles a submission, or reports no share unless it authorizes the session. -/
theorem handlePoolResponse_spec (hres : Resumes host config resume)
    (h : handlePoolResponse host config resume s json = .ok r) :
    (Unsettled host config s r ∧ (idIs json 2 = false → r.share = none)) ∨
      Settled host config s json r := by
  unfold handlePoolResponse at h
  simp only at h
  generalize hh : poolResponseHandler host config s (json.get? "id") = handled at h
  obtain ⟨handler, s₁⟩ := handled
  obtain ⟨r₁, hr₁, h⟩ := Except.bind_eq_ok.mp h
  -- the metadata of a login touches neither the account nor the share
  have hmeta : r.session.account = r₁.session.account ∧ r.share = r₁.share ∧
      (idIs json 1 = false → r = r₁) := by
    split_ifs at h with hc
    · obtain ⟨s₂, hs₂, h⟩ := Except.bind_eq_ok.mp h
      cases h
      exact ⟨congrArg Prod.fst (rememberPoolResponseMetadata_kept hs₂), rfl, by simp [hc.2.2.2]⟩
    · cases h
      exact ⟨rfl, rfl, fun _ => rfl⟩
  rcases poolResponseHandler_cases hh with ⟨rfl, hplain⟩ | ⟨rfl, hsettles⟩
  · obtain ⟨hr, hnone⟩ := runHandler_unsettled hres hplain.1 hr₁
    by_cases ha : handler = .authorize
    · have h2 : idIs json 2 := hplain.2 ha
      rw [hmeta.2.2 (idIs_eq_false h2 (by decide))]
      exact .inl ⟨hr, by simp [h2]⟩
    · have hs := hmeta.2.1.trans (hnone ha)
      exact .inl ⟨.of_no_share (hmeta.1.trans hr.account) hs, fun _ => hs⟩
  · cases hr₁
    exact .inr ⟨⟨_, hsettles, hmeta.1⟩, _, hmeta.2.1⟩

theorem handlePoolResponse_cases (hres : Resumes host config resume)
    (h : handlePoolResponse host config resume s json = .ok r) :
    Unsettled host config s r ∨ Settled host config s json r :=
  (handlePoolResponse_spec hres h).imp_left And.left

/-! ## Messages -/

theorem handleBeamResult_unsettled (hd : poolProtocol host config s = .beam) :
    Unsettled host config s (handleBeamResult s json) := by
  simp only [handleBeamResult]
  split_ifs
  · split
    · exact .of_no_share rfl rfl
    · split <;> exact .of_no_share rfl rfl
  · exact .of_no_share rfl rfl
  · exact ⟨rfl, fun _ => .inr hd⟩

theorem ironfishError_unsettled (hd : poolProtocol host config s = .ironfish) :
    Unsettled host config s (ironfishError host config s json) := by
  have hfailed : Unsettled host config s
      (handleLoginResponse host config { s with job.pendingJob := none } false) :=
    .of_no_share (handleLoginResponse_account _) (handleLoginResponse_share _)
  simp only [ironfishError]
  split_ifs <;> first | exact hfailed | exact ⟨rfl, fun _ => .inl hd⟩

theorem dialectMessage_unsettled (hres : Resumes host config resume)
    (h : dialectMessage host config resume s json = .ok (some r)) :
    Unsettled host config s r := by
  unfold dialectMessage at h
  split_ifs at h with hbeam
  · cases h
    exact handleBeamResult_unsettled hbeam.1
  · unfold handleIronfishMessage at h
    by_cases hd : poolProtocol host config s = .ironfish
    · rw [if_neg (not_not.mpr hd)] at h
      split_ifs at h
      · cases h
        exact ironfishError_unsettled hd
      · simp only [Except.bind_eq_ok] at h
        obtain ⟨s₁, hs₁, r₁, hr₁, h⟩ := h
        cases h
        have hacc : s₁.account = s.account := by
          obtain ⟨-, -, h⟩ := Except.bind_eq_ok.mp hs₁
          cases h
          rfl
        have := releasePending_unsettled hres hr₁
        exact ⟨this.account.trans hacc, this.share⟩
      · cases h
        exact ⟨rfl, fun _ => .inl hd⟩
      · cases h
    · rw [if_pos hd] at h
      cases h

theorem heldBack_account (h : heldBack host config s json = some s') :
    s'.account = s.account := by
  unfold heldBack at h
  split_ifs at h
  cases h
  rfl

theorem decodeMessage_cases {native : Bool} (hres : Resumes host config resume)
    (h : decodeMessage host config random resume s native json = .ok r) :
    Unsettled host config s r ∨ (responseEnvelope json ∧ Settled host config s json r) := by
  unfold decodeMessage at h
  obtain ⟨built, -, h⟩ := Except.bind_eq_ok.mp h
  split at h
  · obtain ⟨s₁, hs₁, h⟩ := Except.bind_eq_ok.mp h
    cases h
    exact .inl (.of_no_share (congrArg Prod.fst (jobDecoded_kept hs₁)) rfl)
  · obtain ⟨-, -, h⟩ := Except.bind_eq_ok.mp h
    split_ifs at h with henv
    · exact (handlePoolResponse_cases hres h).imp_right fun hs => ⟨henv, hs⟩
    · cases h
      exact .inl (.of_no_share rfl rfl)

/-- A response to `getWork` settles no share. -/
theorem Settled.not_work (h : Settled host config s json r)
    (hc : poolProtocol host config s = .cortex) : idIs json 100 = false := by
  obtain ⟨s', hs, -⟩ := h.settles
  rw [Bool.eq_false_iff]
  intro h100
  cases hs with
  | submission hc' => exact hc' hc
  | cortex _ hid _ _ hne => exact hne (isNumber_unique hid h100)

theorem routeMessage_cases {native : Bool} (hres : Resumes host config resume)
    (h : routeMessage host config random resume s native json = .ok r) :
    Unsettled host config s r ∨ (responseEnvelope json ∧ Settled host config s json r) := by
  unfold routeMessage at h
  obtain ⟨own, hown, h⟩ := Except.bind_eq_ok.mp h
  cases own with
  | some reply =>
    cases h
    exact .inl (dialectMessage_unsettled hres hown)
  | none =>
    simp only at h
    by_cases hping : poolProtocol host config s = .xelis ∧ json.methodIs "mining.ping"
    · rw [if_pos hping] at h
      cases h
      refine .inl (.of_no_share (poolWrite_account ?_) poolWrite_share)
      simp [isSubmission, Json.methodIs, Json.get?, List.lookup_cons, Json.isText]
    · rw [if_neg hping] at h
      split at h
      · next s₁ hs₁ =>
        cases h
        exact .inl (.of_no_share (heldBack_account hs₁) rfl)
      · split_ifs at h with hfail hdone
        · rcases handlePoolResponse_cases hres h with hr | hr
          · exact .inl hr
          · simp [hr.not_work hfail.1] at hfail
        · cases h
          exact .inl (.of_no_share rfl rfl)
        · exact decodeMessage_cases hres h

@[simp] theorem announcedDialect_account :
    (announcedDialect host config s json).account = s.account := by
  unfold announcedDialect
  split_ifs
  · exact congrArg Prod.fst (rememberPoolProtocol_kept json)
  · rfl

theorem announcedDialect_of_no_method (h : (json.text? "method").isNone) :
    announcedDialect host config s json = s := by
  simp [announcedDialect, Option.isNone_iff_eq_none.mp h]

theorem Unsettled.of_account {s₁ : Session} (h : Unsettled host config s₁ r)
    (ha : s₁.account = s.account) : Unsettled host config s r :=
  ⟨h.account.trans ha, h.share⟩

theorem poolMessageWith_cases {message : Json} (hres : Resumes host config resume)
    (h : poolMessageWith host config random resume s message = .ok r) :
    Unsettled host config s r ∨ (responseEnvelope (normalizedResponse message) ∧
      Settled host config s (normalizedResponse message) r) := by
  simp only [poolMessageWith] at h
  split at h
  · obtain ⟨s₁, hs₁, h⟩ := Except.bind_eq_ok.mp h
    cases h
    exact .inl (.of_no_share ((poolControl_account hs₁).trans announcedDialect_account) rfl)
  · split_ifs at h with hann
    · obtain ⟨⟨s₁, json₁⟩, hs₁, h⟩ := Except.bind_eq_ok.mp h
      obtain ⟨hacc, hmethod⟩ := nativeAnnouncement_account hs₁
      rcases routeMessage_cases hres h with hr | ⟨henv, -⟩
      · exact .inl (hr.of_account (hacc.trans announcedDialect_account))
      · have hann₁ : isAnnouncement json₁ := by
          simpa only [isAnnouncement, Json.methodIs, hmethod] using hann.2
        simp [responseEnvelope_of_announcement hann₁] at henv
    · rcases routeMessage_cases hres h with hr | ⟨henv, hr⟩
      · exact .inl (hr.of_account announcedDialect_account)
      · rw [announcedDialect_of_no_method (responseEnvelope_no_method henv)] at hr
        exact .inr ⟨henv, hr⟩

/-- On an announcement `pool_message` does not release a held-back one. -/
theorem announcedMessage_resumes :
    Resumes host config (announcedMessage host config random) := by
  intro s json r h
  have hres : Resumes host config (fun s _ => .ok { session := s }) := by
    intro s json r h
    cases h
    exact .of_no_share rfl rfl
  rcases poolMessageWith_cases hres h with hr | ⟨henv, -⟩
  · exact hr
  · have hann : isAnnouncement (normalizedResponse json) := by
      simpa [isAnnouncement, Json.methodIs, normalizedResponse_get?] using json.2
    simp [responseEnvelope_of_announcement hann] at henv

/-- **A message settles a submission or leaves the account alone**, and in the latter case it
reports a share only in the dialects that do so by method. -/
theorem poolMessage_cases {message : Json}
    (h : poolMessage host config random s message = .ok r) :
    Unsettled host config s r ∨ (responseEnvelope (normalizedResponse message) ∧
      Settled host config s (normalizedResponse message) r) :=
  poolMessageWith_cases announcedMessage_resumes h

/-! ## Messages that are responses -/

theorem responseEnvelope_normalized :
    responseEnvelope (normalizedResponse json) = responseEnvelope json := by
  have hid : (normalizedResponse json).has "id" = json.has "id" := by
    unfold normalizedResponse
    split
    · next id _ hid =>
      have hobj : json.isObject := by
        cases json <;> simp_all [Json.text?, Json.get?, Json.isObject]
      have hhas : json.has "id" := by
        obtain ⟨v, hv, -⟩ := Option.bind_eq_some_iff.mp hid
        simp [Json.has, hv]
      split_ifs
      · rw [hhas, Json.has, Json.get?_set_self hobj, Option.isSome_some]
      · rfl
    · rfl
  have hget : ∀ key, key ≠ "id" → (normalizedResponse json).get? key = json.get? key :=
    fun _ h => normalizedResponse_get? h
  unfold responseEnvelope
  rw [hid]
  simp only [Json.has, Json.text?, hget "method" (by decide), hget "result" (by decide),
    hget "error" (by decide)]

/-- A message without a method is a job only as a login result or as Cortex work. -/
theorem jobFromPoolMessage_of_no_method (h : (json.text? "method").isNone)
    (h0 : idIs json 0 = false) (h1 : idIs json 1 = false) (h100 : idIs json 100 = false) :
    jobFromPoolMessage host config s random json = .ok none := by
  have hdialect : ∀ d, dialectJob host config d s.job json = .ok none := by
    intro d
    cases d <;> simp [dialectJob, notifyParams, ironfishBody, kaspaParams, xelisParams,
      methodIs_eq_false h, pure, Except.pure]
  simp [jobFromPoolMessage, h1, cortexWork, h0, h100, pearlParams, jobParams,
    methodIs_eq_false h, hdialect]

/-- **A response that is neither a login result nor work goes to its response handler.** -/
theorem poolMessage_response {message : Json} (henv : responseEnvelope message)
    (h0 : idIs (normalizedResponse message) 0 = false)
    (h1 : idIs (normalizedResponse message) 1 = false)
    (h100 : idIs (normalizedResponse message) 100 = false)
    (hiron : poolProtocol host config s ≠ .ironfish) :
    poolMessage host config random s message = handlePoolResponse host config
      (announcedMessage host config random) s (normalizedResponse message) := by
  rw [← responseEnvelope_normalized] at henv
  have hm := responseEnvelope_no_method henv
  have hown : ∀ resume, dialectMessage host config resume s (normalizedResponse message) =
      .ok none := by
    intro resume
    simp [dialectMessage, isBeamResult, methodIs_eq_false hm, handleIronfishMessage, hiron,
      pure, Except.pure]
  simp only [poolMessage, poolMessageWith, control?_of_no_method hm,
    announcedDialect_of_no_method hm, isAnnouncement_of_no_method hm]
  simp [routeMessage, hown, methodIs_eq_false hm, heldBack, h100, decodeMessage,
    jobFromPoolMessage_of_no_method hm h0 h1 h100, isAnnouncement_of_no_method hm, henv,
    throwIf, bind, Except.bind]

/-- **A response to an outstanding submission is counted**, and crosses the submission off. -/
theorem poolMessage_settles {message : Json} (henv : responseEnvelope message)
    (hs : Settles host config s ((normalizedResponse message).get? "id") s')
    (hids : ∀ n ∈ s.pendingCortexSubmitIds, 72 < n) :
    ∃ accepted, poolMessage host config random s message =
      .ok { session := s', share := some accepted } := by
  obtain ⟨n, hid, h0, h1, h100, hiron⟩ : ∃ n : ℕ,
      idIs (normalizedResponse message) n ∧ n ≠ 0 ∧ n ≠ 1 ∧ n ≠ 100 ∧
        poolProtocol host config s ≠ .ironfish := by
    cases hs with
    | submission hc hi hid => exact ⟨3, hid, by decide, by decide, by decide, hi⟩
    | @cortex n hc hid hmax h72 h100 hn =>
      have := hids n hn
      exact ⟨n, hid, by omega, by omega, h100, by simp [hc]⟩
  have h1 := idIs_eq_false hid h1
  rw [poolMessage_response henv (idIs_eq_false hid h0) h1 (idIs_eq_false hid h100) hiron]
  simp [handlePoolResponse, poolResponseHandler_of_settles hs, runHandler, h1, bind,
    Except.bind, pure, Except.pure]

/-- A response with the id 3 that settles nothing reports no share, Iron Fish apart. -/
theorem poolMessage_unsettled_share {message : Json} (henv : responseEnvelope message)
    (hid : idIs (normalizedResponse message) 3) (hiron : poolProtocol host config s ≠ .ironfish)
    (h : poolMessage host config random s message = .ok r) :
    r.share = none ∨ Settled host config s (normalizedResponse message) r := by
  rw [poolMessage_response henv (idIs_eq_false hid (by decide)) (idIs_eq_false hid (by decide))
    (idIs_eq_false hid (by decide)) hiron] at h
  exact (handlePoolResponse_spec announcedMessage_resumes h).imp_left
    fun hr => hr.2 (idIs_eq_false hid (by decide))

end MoMiner.Pool
