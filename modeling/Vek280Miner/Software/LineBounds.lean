import Vek280Miner.Software.StratumSession
import Vek280Miner.Software.SubscribeLoop

/-!
# The end of a line

What the parsers of `handle_stratum_line` have to do with the memory behind the terminator of a line. All but one give
the same result whatever stands there (`parseNotify_terminated` and the like), and so does `parse_subscribe_response`
unless its loop gets past the end (`readsWithin_iff`).
-/

namespace Vek280Miner.Sw

variable {s t text behind : List Char}

/-! ## Elements of `params` -/

theorem findParamsArray_terminated (s behind : List Char) :
    findParamsArray (terminated s behind) = (findParamsArray s).map (terminated · behind) := by
  rw [findParamsArray, findParamsArray, strstr_terminated (by decide)]
  cases strstr "\"params\"".toList s with
  | none => rfl
  | some p =>
    rw [Option.map_some, Option.bind_some, Option.bind_some, strchr_terminated (by decide)]
    cases h : strchr '[' p with
    | none => rfl
    | some r =>
      obtain ⟨-, u, -, hu, -⟩ := strchr_eq_some h
      rw [Option.map_some, Option.map_some, Option.map_some, Option.map_some,
        tail_terminated (by rw [hu]; exact show '[' ≠ '\x00' by decide)]

theorem skipComma_terminated (s behind : List Char) :
    skipComma (terminated s behind) = terminated (skipComma s) behind := by
  rw [skipComma, skipComma, skipWs_terminated, deref_terminated]
  split
  · rename_i h
    exact tail_terminated (by rw [h]; decide) behind
  · rfl

theorem paramsString_terminated {n : Nat} (s behind : List Char) :
    (paramsString (terminated s behind) : Option (CStr (n + 1) × List Char)) =
      (paramsString s).map fun r => (r.1, terminated r.2 behind) := by
  rw [paramsString, paramsString, skipWs_terminated, readJsonString_terminated, Option.map_map, Option.map_map]
  refine congrArg (Option.map · _) (funext fun r => ?_)
  simp only [Function.comp_apply, skipComma_terminated]

theorem paramsBool_terminated (s behind : List Char) :
    paramsBool (terminated s behind) = (paramsBool s).map fun r => (r.1, terminated r.2 behind) := by
  have hdrop : ∀ {word : List Char}, word.isPrefixOf (skipWs s) = true →
      (terminated (skipWs s) behind).drop word.length = terminated ((skipWs s).drop word.length) behind := fun h =>
    drop_terminated (List.isPrefixOf_iff_prefix.1 h).length_le behind
  simp only [paramsBool, skipWs_terminated, isPrefixOf_terminated (show '\x00' ∉ "true".toList by decide),
    isPrefixOf_terminated (show '\x00' ∉ "false".toList by decide)]
  split
  · rename_i h
    have h4 : (terminated (skipWs s) behind).drop 4 = terminated ((skipWs s).drop 4) behind := hdrop h
    rw [h4, skipComma_terminated, Option.map_some]
  · split
    · rename_i h
      have h5 : (terminated (skipWs s) behind).drop 5 = terminated ((skipWs s).drop 5) behind := hdrop h
      rw [h5, skipComma_terminated, Option.map_some]
    · rfl

theorem merkleArrayLoop_terminated (slots : Nat) (s behind : List Char) :
    merkleArrayLoop slots (terminated s behind) = (merkleArrayLoop slots s).map fun r => (r.1, terminated r.2 behind) := by
  induction slots generalizing s with
  | zero =>
    rw [merkleArrayLoop, merkleArrayLoop, skipWs_terminated, deref_terminated]
    split
    · rename_i h
      rw [tail_terminated (by rw [h]; decide), Option.map_some]
    · rfl
  | succ slots ih =>
    rw [merkleArrayLoop, merkleArrayLoop, skipWs_terminated, deref_terminated, readJsonString_terminated]
    split
    · rename_i h
      rw [tail_terminated (by rw [h]; decide), Option.map_some]
    · cases (readJsonString (skipWs s) : Option (CStr 65 × List Char)) with
      | none => rfl
      | some r =>
        dsimp only [Option.map_some]
        rw [skipWs_terminated, deref_terminated]
        split
        · rename_i h
          rw [tail_terminated (by rw [h]; decide), ih, Option.map_map, Option.map_map]
          rfl
        · split
          · rfl
          · rw [ih, Option.map_map, Option.map_map]
            rfl

theorem paramsMerkleArray_terminated (s behind : List Char) :
    paramsMerkleArray (terminated s behind) = (paramsMerkleArray s).map fun r => (r.1, terminated r.2 behind) := by
  simp only [paramsMerkleArray, skipWs_terminated, deref_terminated]
  split
  · rfl
  · rename_i h
    rw [tail_terminated (fun h0 => h (by rw [h0]; decide)), merkleArrayLoop_terminated, Option.map_map, Option.map_map]
    refine congrArg (Option.map · _) (funext fun r => ?_)
    simp only [Function.comp_apply, skipComma_terminated]

/-! ## Messages -/

theorem parseNotify_terminated (s behind : List Char) : parseNotify (terminated s behind) = parseNotify s := by
  -- the next string, from wherever it is read
  have hstring : ∀ {n : Nat} {β : Type} (p : List Char) (f g : CStr (n + 1) × List Char → Option β),
      (∀ r, f (r.1, terminated r.2 behind) = g r) → (paramsString (terminated p behind)).bind f = (paramsString p).bind g := by
    intro n β p f g hfg
    rw [paramsString_terminated]
    cases paramsString p with
    | none => rfl
    | some r => exact hfg r
  simp only [parseNotify, Option.bind_eq_bind, findParamsArray_terminated]
  cases findParamsArray s with
  | none => rfl
  | some p =>
    refine hstring p _ _ fun jobId => hstring _ _ _ fun prevhash => hstring _ _ _ fun coinb1 => hstring _ _ _ fun coinb2 => ?_
    dsimp only
    rw [paramsMerkleArray_terminated]
    cases paramsMerkleArray coinb2.2 with
    | none => rfl
    | some merkle =>
      refine hstring _ _ _ fun version => hstring _ _ _ fun nbits => hstring _ _ _ fun ntime => ?_
      dsimp only
      rw [paramsBool_terminated]
      cases paramsBool ntime.2 <;> rfl

theorem parseTarget_terminated (s behind : List Char) : parseTarget (terminated s behind) = parseTarget s := by
  simp only [parseTarget, Option.bind_eq_bind, findParamsArray_terminated]
  cases findParamsArray s with
  | none => rfl
  | some p =>
    simp only [Option.map_some, Option.bind_some, paramsString_terminated]
    cases (paramsString p : Option (CStr 65 × List Char)) <;> rfl

theorem parseDifficulty_terminated {strtod : List Char → Rat} (hstrtod : ∀ s behind, strtod (terminated s behind) = strtod s)
    (s behind : List Char) : parseDifficulty strtod (terminated s behind) = parseDifficulty strtod s := by
  simp only [parseDifficulty, Option.bind_eq_bind, findParamsArray_terminated]
  cases findParamsArray s with
  | none => rfl
  | some p => simp only [Option.map_some, Option.bind_some, hstrtod]

theorem parseAuthorizeResponse_terminated (s behind : List Char) (state : StratumState) :
    parseAuthorizeResponse (terminated s behind) state = parseAuthorizeResponse s state := by
  rw [parseAuthorizeResponse, parseAuthorizeResponse, strstr_terminated (by decide)]
  cases strstr "\"result\"".toList s with
  | none => rfl
  | some r =>
    simp only [Option.map_some, jsonHasId_terminated, strstr_terminated (show '\x00' ∉ "true".toList by decide),
      Option.isSome_map]

theorem countShare_terminated_eq (s behind : List Char) (debug : StratumDebug) :
    countShare (terminated s behind) debug = countShare s debug := by
  simp only [countShare, jsonHasId_terminated, Option.isSome_map,
    strstr_terminated (show '\x00' ∉ "\"result\":true".toList by decide),
    strstr_terminated (show '\x00' ∉ "\"result\":false".toList by decide),
    strstr_terminated (show '\x00' ∉ "\"error\":".toList by decide)]

/-! ## The whole line -/

/-- No result depends on the memory behind the terminator. -/
structure ReadsWithin (strtod : List Char → Rat) (text : List Char) : Prop where
  methodIs : ∀ method behind behind',
    jsonMethodIs (terminated text behind) method = jsonMethodIs (terminated text behind') method
  hasId : ∀ id behind behind', jsonHasId (terminated text behind) id = jsonHasId (terminated text behind') id
  notify : ∀ behind behind', parseNotify (terminated text behind) = parseNotify (terminated text behind')
  difficulty : ∀ behind behind',
    parseDifficulty strtod (terminated text behind) = parseDifficulty strtod (terminated text behind')
  target : ∀ behind behind', parseTarget (terminated text behind) = parseTarget (terminated text behind')
  subscribe : ∀ state behind behind',
    parseSubscribeResponse (terminated text behind) state = parseSubscribeResponse (terminated text behind') state
  authorize : ∀ state behind behind',
    parseAuthorizeResponse (terminated text behind) state = parseAuthorizeResponse (terminated text behind') state
  handle : ∀ session debug behind behind',
    handleStratumLine strtod (terminated text behind) session debug =
      handleStratumLine strtod (terminated text behind') session debug

/-- `handle_stratum_line` looks at nothing but the results of the parsers. -/
theorem handle_within {strtod : List Char → Rat} (hstrtod : ∀ s behind, strtod (terminated s behind) = strtod s)
    (h : ∀ state behind, parseSubscribeResponse (terminated text behind) state =
      parseSubscribeResponse (terminated text []) state) (session : StratumSession) (debug : StratumDebug)
    (behind : List Char) : handleStratumLine strtod (terminated text behind) session debug =
      handleStratumLine strtod (terminated text []) session debug := by
  simp only [handleStratumLine, handleResponse, jsonMethodIs_terminated, parseNotify_terminated,
    parseDifficulty_terminated hstrtod, parseTarget_terminated, countShare_terminated_eq, h _ behind,
    parseAuthorizeResponse_terminated]

/-- **Nothing behind the terminator is read**, unless the loop of `parse_subscribe_response` gets past it. -/
theorem readsWithin_iff {strtod : List Char → Rat} (hstrtod : ∀ s behind, strtod (terminated s behind) = strtod s)
    (h0 : '\x00' ∉ text) : ReadsWithin strtod text ↔ ¬ Overrun text := by
  constructor
  · intro h hover
    obtain ⟨hsome, hnone⟩ := parseSubscribeResponse_overrun hover StratumSession.fresh.state
    rw [h.subscribe _ _ ['9', '9'], hnone] at hsome
    cases hsome
  · intro h
    have hsubscribe := parseSubscribeResponse_within h0 h
    constructor
    · exact fun method behind behind' => by rw [jsonMethodIs_terminated, jsonMethodIs_terminated]
    · exact fun id behind behind' => by rw [jsonHasId_terminated, jsonHasId_terminated]
    · exact fun behind behind' => by rw [parseNotify_terminated, parseNotify_terminated]
    · exact fun behind behind' => by rw [parseDifficulty_terminated hstrtod, parseDifficulty_terminated hstrtod]
    · exact fun behind behind' => by rw [parseTarget_terminated, parseTarget_terminated]
    · exact fun state behind behind' => by rw [hsubscribe state behind, hsubscribe state behind']
    · exact fun state behind behind' => by rw [parseAuthorizeResponse_terminated, parseAuthorizeResponse_terminated]
    · exact fun session debug behind behind' => by
        rw [handle_within hstrtod hsubscribe session debug behind, handle_within hstrtod hsubscribe session debug behind']

/-- So the end of a line without white space there is safe. -/
theorem not_overrun (h : ∀ c, text.getLast? = some c → isBlank c = false) : ¬ Overrun text := by
  rintro ⟨s, hs, hun⟩
  obtain ⟨c, hlast, hc⟩ := hun.last
  obtain ⟨a, rfl⟩ := subscribeArray_suffix hs
  rw [h c (by rw [List.getLast?_append, hlast]; rfl)] at hc
  cases hc

/-! ## A truncated response -/

/-- A number at the beginning of a text, in place of `strtod`. -/
def leadingNumber (s : List Char) : Rat := (strtoul10 s).1.toNat

theorem leadingNumber_terminated (s behind : List Char) : leadingNumber (terminated s behind) = leadingNumber s := by
  rw [leadingNumber, strtoul10_terminated, leadingNumber]

/-- A response that is cut off behind the first bracket. -/
def cutResponse : List Char := "\x7b\"id\":1,\"result\":[ ".toList

theorem overrun_cutResponse : Overrun cutResponse := by
  have hfind : strstr "\"id\"".toList cutResponse = some (cutResponse.drop 1) := by
    dsimp only [cutResponse, String.reduceToList]
    decide
  have hid : jsonHasId cutResponse 1 = true := by
    rw [jsonHasId_some hfind]
    dsimp only [cutResponse, String.reduceToList]
    decide
  have harray : (strstr "\"result\"".toList cutResponse).bind (strchr '[') = some ['[', ' '] := by
    dsimp only [cutResponse, String.reduceToList]
    decide
  exact ⟨['[', ' '], by rw [subscribeArray, if_pos hid, harray], .opening (.blank (by decide))⟩

/-- The parsers get past its end. -/
theorem cutResponse_overruns : ¬ ∀ (strtod : List Char → Rat), (∀ s behind, strtod (terminated s behind) = strtod s) →
    ∀ text, '\x00' ∉ text → ReadsWithin strtod text := by
  intro h
  have hzero : '\x00' ∉ cutResponse := by
    dsimp only [cutResponse, String.reduceToList]
    decide
  obtain ⟨hsome, hnone⟩ := parseSubscribeResponse_overrun overrun_cutResponse StratumSession.fresh.state
  rw [(h leadingNumber leadingNumber_terminated cutResponse hzero).subscribe _ _ ['9', '9'], hnone] at hsome
  cases hsome

theorem readsWithin_subscription :
    ReadsWithin leadingNumber "\x7b\"id\":1,\"result\":[[],\"abcd1234\",8]\x7d".toList := by
  refine (readsWithin_iff leadingNumber_terminated ?_).2 (not_overrun fun c hc => ?_)
  · dsimp only [String.reduceToList]
    decide
  · dsimp only [String.reduceToList] at hc
    obtain rfl := Option.some.inj hc
    decide

end Vek280Miner.Sw
