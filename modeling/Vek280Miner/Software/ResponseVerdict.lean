import Vek280Miner.Software.LineBounds
import Vek280Miner.Software.ResponseLine

/-!
# Responses of the pool (`handle_stratum_line`)

A response is a JSON object; its members `id` and `result` say what it answers and how. The code does not read the
object. It looks for the letters `true` behind the first text `"result"`, and for the texts `"result":true`,
`"result":false` and `"error":` anywhere in the line. `authorizedByResult_iff` and `countedByResult_iff` say for which
responses this comes to the same.
-/

namespace Vek280Miner.Sw

variable {members : List (JsonString × Json)} {text behind : List Char} {session : StratumSession} {debug : StratumDebug}
  {strtod : List Char → Rat}

/-! ## What a response says -/

/-- The request that is answered. -/
def IdIs (id : Nat) (members : List (JsonString × Json)) : Prop :=
  ∃ n, member "id".toList members = some (.num n) ∧ n.value = id

def ResultIs (j : Json) (members : List (JsonString × Json)) : Prop := member "result".toList members = some j

/-- The authorization is granted. -/
def Granted (members : List (JsonString × Json)) : Prop := IdIs 2 members ∧ ResultIs (.bool true) members

/-- The share is refused. -/
def Refused (members : List (JsonString × Json)) : Prop := ResultIs (.bool false) members ∨ ResultIs .null members

/-! ## What the code looks for -/

/-- The line is read as a notify or as a target. -/
def TakenForRequest (text : List Char) : Prop :=
  jsonMethodIs text "mining.notify".toList = true ∨ jsonMethodIs text "mining.set_difficulty".toList = true ∨
    jsonMethodIs text "mining.set_target".toList = true

/-- The letters of `true` stand behind a text `"result"`. -/
def TrueBehindResult (text : List Char) : Prop := ∃ s, s <:+ text ∧ "\"result\"".toList <+: s ∧ "true".toList <:+: s

theorem trueBehindResult_iff (h0 : '\x00' ∉ text) : TrueBehindResult text ↔
    ∃ r, strstr "\"result\"".toList text = some r ∧ (strstr "true".toList r).isSome := by
  constructor
  · rintro ⟨s, ⟨a, rfl⟩, hpre, htrue⟩
    rw [List.mem_append, not_or] at h0
    have hs : deref s ≠ '\x00' := by
      obtain ⟨u, rfl⟩ := hpre
      exact show '"' ≠ '\x00' by decide
    obtain ⟨r, hr, hsr⟩ := strstr_append h0.1 hs hpre
    obtain ⟨b, hb, -, -⟩ := strstr_eq_some hr
    have hr0 : '\x00' ∉ r := fun hmem =>
      (List.mem_append.1 (hb ▸ List.mem_append_right b hmem : '\x00' ∈ a ++ s)).elim h0.1 h0.2
    exact ⟨r, hr, (strstr_isSome_iff (by decide) hr0).2 (htrue.trans hsr.isInfix)⟩
  · rintro ⟨r, hr, htrue⟩
    obtain ⟨a, rfl, hpre, -⟩ := strstr_eq_some hr
    have hr0 : '\x00' ∉ r := fun hmem => h0 (List.mem_append_right a hmem)
    exact ⟨r, List.suffix_append a r, hpre, (strstr_isSome_iff (by decide) hr0).1 htrue⟩

theorem parseAuthorize_letters (h0 : '\x00' ∉ text) (state : StratumState) :
    parseAuthorizeResponse text state = some { state with authorized := true } ∧
        jsonHasId text 2 = true ∧ TrueBehindResult text ∨
      parseAuthorizeResponse text state = none ∧ ¬ (jsonHasId text 2 = true ∧ TrueBehindResult text) := by
  rw [parseAuthorizeResponse, trueBehindResult_iff h0]
  cases strstr "\"result\"".toList text with
  | none => exact .inr ⟨rfl, by simp⟩
  | some r =>
    cases hid : jsonHasId text 2 with
    | false => exact .inr ⟨rfl, by simp⟩
    | true =>
      by_cases htrue : (strstr "true".toList r).isSome
      · exact .inl ⟨if_pos htrue, rfl, r, rfl, htrue⟩
      · refine .inr ⟨if_neg htrue, ?_⟩
        rintro ⟨-, r', hr', htrue'⟩
        obtain rfl := Option.some.inj hr'
        exact htrue htrue'

/-- Such a line is no response, and nothing is taken from it as one. -/
theorem handle_request (h : TakenForRequest text) (strtod : List Char → Rat) (session : StratumSession) (debug : StratumDebug)
    (behind : List Char) :
    let handled := handleStratumLine strtod (terminated text behind) session debug
    handled.1.state.authorized = session.state.authorized ∧ handled.2.1.shareAccepted = debug.shareAccepted ∧
      handled.2.1.shareRejected = debug.shareRejected := by
  unfold handleStratumLine
  simp only [jsonMethodIs_terminated]
  split
  · split <;> exact ⟨rfl, rfl, rfl⟩
  · split
    · split <;> exact ⟨rfl, rfl, rfl⟩
    · split
      · split <;> exact ⟨rfl, rfl, rfl⟩
      · rename_i hn hd ht
        rcases h with h | h | h
        · exact absurd h hn
        · exact absurd h hd
        · exact absurd h ht

/-- Any other line is a response. -/
theorem handle_response (h : ¬ TakenForRequest text) (behind : List Char) :
    handleStratumLine strtod (terminated text behind) session debug =
      handleResponse (terminated text behind) session { debug with rxLines := debug.rxLines + 1 } := by
  simp only [TakenForRequest, not_or] at h
  obtain ⟨hn, hd, ht⟩ := h
  rw [handleStratumLine, jsonMethodIs_terminated, jsonMethodIs_terminated, jsonMethodIs_terminated, if_neg hn, if_neg hd,
    if_neg ht]

theorem parseSubscribe_authorized {line : List Char} {state state' : StratumState}
    (h : parseSubscribeResponse line state = some state') : state'.authorized = state.authorized := by
  unfold parseSubscribeResponse at h
  split at h
  · cases h
  · split at h
    · cases h
    · split at h
      · cases h
      · split at h
        · cases h
        · split at h
          · cases h
          · obtain rfl := Option.some.inj h
            rfl

/-! ## Authorization -/

theorem handleResponse_authorized (h0 : '\x00' ∉ text) (hs : session.state.authorized = false) :
    (handleResponse (terminated text behind) session debug).1.state.authorized = true ↔
      jsonHasId text 2 = true ∧ TrueBehindResult text := by
  have hauthorize : ∀ state : StratumState, state.authorized = false →
      (((parseAuthorizeResponse text state).getD state).authorized = true ↔
        jsonHasId text 2 = true ∧ TrueBehindResult text) := by
    intro state hstate
    rcases parseAuthorize_letters h0 state with ⟨hsome, hfound⟩ | ⟨hnone, hmissing⟩
    · rw [hsome]
      exact iff_of_true rfl hfound
    · rw [hnone]
      exact iff_of_false (by simp [hstate]) hmissing
  rw [handleResponse_session]
  simp only [parseAuthorizeResponse_terminated]
  cases hsub : parseSubscribeResponse (terminated text behind) session.state with
  | none => exact hauthorize _ hs
  | some state => exact hauthorize _ ((parseSubscribe_authorized hsub).trans hs)

/-- A line authorizes the session if it is no request and the letters are found. -/
theorem handle_authorized (h0 : '\x00' ∉ text) (hs : session.state.authorized = false) :
    (handleStratumLine strtod (terminated text behind) session debug).1.state.authorized = true ↔
      ¬ TakenForRequest text ∧ jsonHasId text 2 = true ∧ TrueBehindResult text := by
  by_cases hrequest : TakenForRequest text
  · refine iff_of_false ?_ fun h => h.1 hrequest
    rw [(handle_request hrequest strtod session debug behind).1, hs]
    exact Bool.false_ne_true
  · rw [handle_response hrequest, handleResponse_authorized h0 hs, and_iff_right hrequest]

/-- The session is authorized exactly if the response says so. -/
def AuthorizedByResult (strtod : List Char → Rat) (members : List (JsonString × Json)) (line : List Char)
    (session : StratumSession) (debug : StratumDebug) : Prop :=
  (handleStratumLine strtod line session debug).1.state.authorized = true ↔ Granted members

/-- The letters that are looked for tell whether the authorization is granted. -/
structure AuthorizationSpelled (members : List (JsonString × Json)) (text : List Char) : Prop where
  granted : Granted members → ¬ TakenForRequest text ∧ (PlainId 2 members ∨ jsonHasId text 2 = true) ∧
    ((∃ key, (key, Json.bool true) ∈ members ∧ key.text = "result".toList) ∨ TrueBehindResult text)
  refused : ¬ Granted members → TakenForRequest text ∨ jsonHasId text 2 = false ∨ ¬ TrueBehindResult text

/-- **Authorization.** -/
theorem authorizedByResult_iff (htext : (Json.obj members).Text text) (hs : session.state.authorized = false)
    (behind : List Char) (strtod : List Char → Rat) (debug : StratumDebug) :
    AuthorizedByResult strtod members (terminated text behind) session debug ↔ AuthorizationSpelled members text := by
  rw [AuthorizedByResult, handle_authorized htext.no_zero hs]
  constructor
  · intro h
    constructor
    · intro hgranted
      obtain ⟨hrequest, hid, htrue⟩ := h.2 hgranted
      exact ⟨hrequest, .inr hid, .inr htrue⟩
    · intro hrefused
      by_contra hcon
      simp only [not_or, not_not, Bool.not_eq_false] at hcon
      exact hrefused (h.1 hcon)
  · rintro ⟨hgranted, hrefused⟩
    constructor
    · rintro ⟨hrequest, hid, htrue⟩
      by_contra hnot
      rcases hrefused hnot with h | h | h
      · exact hrequest h
      · rw [hid] at h
        cases h
      · exact h htrue
    · intro h
      obtain ⟨hrequest, hid, htrue⟩ := hgranted h
      refine ⟨hrequest, hid.elim (fun hid => hid.jsonHasId (by decide) htext) id, htrue.elim ?_ id⟩
      rintro ⟨key, hmem, hkey⟩
      exact result_behind hmem hkey (by rw [Json.lexemes]; exact List.mem_singleton.2 rfl) htext

/-- A response with the members in their usual order. -/
def response (id : Nat) (result error : Json) : List (JsonString × Json) :=
  [(idName, .num (.ofNat id)), (resultName, result), (errorName, error)]

theorem plainId_response (id : Nat) (result error : Json) : PlainId id (response id result error) :=
  ⟨_, _, List.mem_cons_self, by decide, rfl, rfl⟩

theorem idIs_response (id : Nat) (result error : Json) : IdIs id (response id result error) :=
  ⟨.ofNat id, rfl, JsonNumber.value_ofNat id⟩

theorem resultIs_response (id : Nat) (result error : Json) : ResultIs result (response id result error) := rfl

/-- A refusal whose error has the letters of `true`. -/
def refusal : List (JsonString × Json) :=
  response 2 (.bool false) (.arr [.num (.ofNat 24), .str (.ofText "true".toList (by decide)), .null])

def refusalText : List Char := "\x7b\"id\":2,\"result\":false,\"error\":[24,\"true\",null]\x7d".toList

theorem refusal_text : (Json.obj refusal).Text refusalText := by
  have htext : refusalText = (Json.obj refusal).lexemes.flatten := by
    dsimp only [refusalText, String.reduceToList]
    decide
  rw [htext]
  exact Json.text_compact _

/-- It authorizes the session. -/
theorem refusal_authorizes : (Json.obj refusal).Text refusalText ∧
    ¬ AuthorizedByResult (fun _ => 1) refusal (terminated refusalText []) .fresh .fresh := by
  refine ⟨refusal_text, fun h => ?_⟩
  have hrequest : ¬ TakenForRequest refusalText := by
    unfold TakenForRequest
    dsimp only [refusalText, String.reduceToList]
    decide
  have hid : PlainId 2 refusal := plainId_response 2 _ _
  have htrue : TrueBehindResult refusalText := by
    refine ⟨refusalText.drop 8, List.drop_suffix 8 _, ?_, ?_⟩ <;>
    · dsimp only [refusalText, String.reduceToList]
      decide
  have hauthorized : (handleStratumLine (fun _ => 1) (terminated refusalText []) .fresh .fresh).1.state.authorized = true :=
    (handle_authorized refusal_text.no_zero rfl).2 ⟨hrequest, hid.jsonHasId (by decide) refusal_text, htrue⟩
  obtain ⟨-, hresult⟩ := h.1 hauthorized
  have hfalse : member "result".toList refusal = some (.bool false) := resultIs_response 2 _ _
  rw [ResultIs, hfalse] at hresult
  cases hresult

def acceptance (id : Nat) : List (JsonString × Json) := response id (.bool true) .null

theorem acceptance_authorizes :
    AuthorizedByResult (fun _ => 1) (acceptance 2) (terminated (Json.obj (acceptance 2)).lexemes.flatten []) .fresh .fresh := by
  refine (authorizedByResult_iff (Json.text_compact _) rfl [] _ _).2 ⟨fun _ => ⟨?_, .inl (plainId_response 2 _ _), .inl ?_⟩, ?_⟩
  · unfold TakenForRequest
    decide
  · exact ⟨_, List.mem_cons_of_mem _ List.mem_cons_self, by decide⟩
  · exact fun h => absurd ⟨idIs_response 2 _ _, resultIs_response 2 _ _⟩ h

/-! ## Shares -/

def AcceptedText (text : List Char) : Prop := "\"result\":true".toList <:+: text

def RejectedText (text : List Char) : Prop :=
  ¬ AcceptedText text ∧ ("\"result\":false".toList <:+: text ∨ "\"error\":".toList <:+: text)

/-- The verdict by the texts. -/
theorem countShare_texts (h0 : '\x00' ∉ text) (debug : StratumDebug) :
    ((countShare text debug).shareAccepted = debug.shareAccepted + 1 ↔
        jsonHasId text 4 = true ∧ AcceptedText text) ∧
      ((countShare text debug).shareRejected = debug.shareRejected + 1 ↔
        jsonHasId text 4 = true ∧ RejectedText text) := by
  have htrue := strstr_isSome_iff (show "\"result\":true".toList ≠ [] by decide) h0
  have hfalse := strstr_isSome_iff (show "\"result\":false".toList ≠ [] by decide) h0
  have herror := strstr_isSome_iff (show "\"error\":".toList ≠ [] by decide) h0
  rw [countShare, RejectedText, AcceptedText, ← htrue, ← hfalse, ← herror, ← Bool.or_eq_true]
  split
  · rename_i hid
    split
    · rename_i h
      exact ⟨iff_of_true rfl ⟨hid, h⟩, iff_of_false (by simp) fun hr => hr.2.1 h⟩
    · rename_i h
      split
      · rename_i hr
        exact ⟨iff_of_false (by simp) fun ha => h ha.2, iff_of_true rfl ⟨hid, h, hr⟩⟩
      · rename_i hr
        exact ⟨iff_of_false (by simp) fun ha => h ha.2, iff_of_false (by simp) fun hrej => hr hrej.2.2⟩
  · rename_i hid
    exact ⟨iff_of_false (by simp) fun ha => hid ha.1, iff_of_false (by simp) fun hr => hid hr.1⟩

/-- The subscription and the authorization have counters of their own. -/
theorem handleResponse_shares {line : List Char} :
    (handleResponse line session debug).2.1.shareAccepted = (countShare line debug).shareAccepted ∧
      (handleResponse line session debug).2.1.shareRejected = (countShare line debug).shareRejected := by
  unfold handleResponse
  cases hs : parseSubscribeResponse line session.state with
  | none => cases ha : parseAuthorizeResponse line session.state <;> simp only [ha, and_self]
  | some state => cases ha : parseAuthorizeResponse line state <;> simp only [ha, and_self]

/-- A share is counted if the line is no request and the texts are found. -/
theorem handle_shares (h0 : '\x00' ∉ text) (behind : List Char) (strtod : List Char → Rat) (session : StratumSession)
    (debug : StratumDebug) :
    let debug' := (handleStratumLine strtod (terminated text behind) session debug).2.1
    (debug'.shareAccepted = debug.shareAccepted + 1 ↔
        ¬ TakenForRequest text ∧ jsonHasId text 4 = true ∧ AcceptedText text) ∧
      (debug'.shareRejected = debug.shareRejected + 1 ↔
        ¬ TakenForRequest text ∧ jsonHasId text 4 = true ∧ RejectedText text) := by
  intro debug'
  by_cases hrequest : TakenForRequest text
  · obtain ⟨-, haccepted, hrejected⟩ := handle_request hrequest strtod session debug behind
    exact ⟨iff_of_false (by simp [debug', haccepted]) fun h => h.1 hrequest,
      iff_of_false (by simp [debug', hrejected]) fun h => h.1 hrequest⟩
  · obtain ⟨haccepted, hrejected⟩ := countShare_texts h0 { debug with rxLines := debug.rxLines + 1 }
    simp only [debug', handle_response hrequest, handleResponse_shares, countShare_terminated_eq, and_iff_right hrequest]
    exact ⟨haccepted, hrejected⟩

/-- A response to a share is counted as its result says. -/
def CountedByResult (strtod : List Char → Rat) (members : List (JsonString × Json)) (line : List Char)
    (session : StratumSession) (debug : StratumDebug) : Prop :=
  IdIs 4 members →
    let debug' := (handleStratumLine strtod line session debug).2.1
    (debug'.shareAccepted = debug.shareAccepted + 1 ↔ ResultIs (.bool true) members) ∧
      (debug'.shareRejected = debug.shareRejected + 1 ↔ Refused members)

/-- The texts that are looked for tell the result. -/
structure VerdictSpelled (members : List (JsonString × Json)) (text : List Char) : Prop where
  accepted : ResultIs (.bool true) members →
    ¬ TakenForRequest text ∧ (PlainId 4 members ∨ jsonHasId text 4 = true) ∧ AcceptedText text
  refused : Refused members → ¬ TakenForRequest text ∧ (PlainId 4 members ∨ jsonHasId text 4 = true) ∧ RejectedText text
  other : ¬ ResultIs (.bool true) members → ¬ Refused members →
    TakenForRequest text ∨ jsonHasId text 4 = false ∨ ¬ AcceptedText text ∧ ¬ RejectedText text

theorem not_refused_of_true (h : ResultIs (.bool true) members) : ¬ Refused members := by
  rintro (hr | hr) <;>
  · rw [ResultIs, h] at hr
    cases hr

/-- **Verdicts on shares.** -/
theorem countedByResult_iff (htext : (Json.obj members).Text text) (behind : List Char) (strtod : List Char → Rat)
    (session : StratumSession) (debug : StratumDebug) :
    CountedByResult strtod members (terminated text behind) session debug ↔ (IdIs 4 members → VerdictSpelled members text) := by
  refine imp_congr_right fun _ => ?_
  obtain ⟨haccepted, hrejected⟩ :=
    handle_shares htext.no_zero behind strtod session debug
  have hid : PlainId 4 members ∨ jsonHasId text 4 = true ↔ jsonHasId text 4 = true :=
    ⟨fun h => h.elim (fun h => h.jsonHasId (by decide) htext) id, .inr⟩
  -- no text is both
  have hdisjoint : AcceptedText text → ¬ RejectedText text := fun ha hr => hr.1 ha
  dsimp only
  rw [haccepted, hrejected]
  constructor
  · rintro ⟨ha, hr⟩
    constructor
    · intro h
      rw [hid]
      exact ha.2 h
    · intro h
      rw [hid]
      exact hr.2 h
    · intro hna hnr
      by_contra hcon
      simp only [not_or, not_and_or, not_not, Bool.not_eq_false] at hcon
      obtain ⟨hrequest, hfound, htexts⟩ := hcon
      rcases htexts with h | h
      · exact hna (ha.1 ⟨hrequest, hfound, h⟩)
      · exact hnr (hr.1 ⟨hrequest, hfound, h⟩)
  · rintro ⟨ha, hr, ho⟩
    rw [hid] at ha hr
    refine ⟨⟨fun h => ?_, ha⟩, ⟨fun h => ?_, hr⟩⟩
    · by_contra hna
      by_cases hrefused : Refused members
      · exact hdisjoint h.2.2 (hr hrefused).2.2
      · rcases ho hna hrefused with hrequest | hmissing | hnone
        · exact h.1 hrequest
        · rw [h.2.1] at hmissing
          cases hmissing
        · exact hnone.1 h.2.2
    · by_contra hnr
      by_cases htrue : ResultIs (.bool true) members
      · exact hdisjoint (ha htrue).2.2 h.2.2
      · rcases ho htrue hnr with hrequest | hmissing | hnone
        · exact h.1 hrequest
        · rw [h.2.1] at hmissing
          cases hmissing
        · exact hnone.2 h.2.2

/-- The usual response with a space behind every colon. -/
def spacedText : List Char := "\x7b\"id\": 4,\"result\": true,\"error\":null\x7d".toList

theorem spaced_text : (Json.obj (acceptance 4)).Text spacedText := by
  let blanks : List (List Char) := [[], [], [], [' '], [], [], [], [' '], [], [], [], [], []]
  have htext : spacedText = (List.zipWith (· ++ ·) blanks (Json.obj (acceptance 4)).lexemes).flatten := by
    dsimp only [spacedText, String.reduceToList]
    decide
  rw [htext]
  exact ⟨[], blank_nil, reads_zip (by decide) (by decide)⟩

/-- An accepted share that is counted as rejected. -/
theorem spaced_rejected : (Json.obj (acceptance 4)).Text spacedText ∧
    ¬ CountedByResult (fun _ => 1) (acceptance 4) (terminated spacedText []) .fresh .fresh := by
  refine ⟨spaced_text, fun h => ?_⟩
  have hrequest : ¬ TakenForRequest spacedText := by
    unfold TakenForRequest
    dsimp only [spacedText, String.reduceToList]
    decide
  have hrejected : RejectedText spacedText := by
    unfold RejectedText AcceptedText
    dsimp only [spacedText, String.reduceToList]
    decide
  have hid : jsonHasId spacedText 4 = true := (plainId_response 4 _ _).jsonHasId (by decide) spaced_text
  have hcount := (handle_shares spaced_text.no_zero [] (fun _ => 1) .fresh .fresh).2.2 ⟨hrequest, hid, hrejected⟩
  exact not_refused_of_true (resultIs_response 4 _ _) ((h (idIs_response 4 _ _)).2.1 hcount)

theorem acceptance_counted :
    CountedByResult (fun _ => 1) (acceptance 4) (terminated (Json.obj (acceptance 4)).lexemes.flatten []) .fresh .fresh := by
  refine (countedByResult_iff (Json.text_compact _) [] _ _ _).2 fun _ =>
    ⟨fun _ => ⟨?_, .inl (plainId_response 4 _ _), ?_⟩, ?_, ?_⟩
  · unfold TakenForRequest
    decide
  · unfold AcceptedText
    decide
  · exact fun h => absurd h (not_refused_of_true (resultIs_response 4 _ _))
  · exact fun h => absurd (resultIs_response 4 _ _) h

end Vek280Miner.Sw
