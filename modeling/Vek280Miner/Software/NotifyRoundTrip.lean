import Vek280Miner.Software.JobHeader
import Vek280Miner.Software.JsonLine

/-!
# A notify that is sent and read back

`notifyJson` is the message for a notify, the members `id`, `method` and `params` in this order and every string with
its quotes and backslashes escaped. Whatever white space stands between its lexemes, `handle_stratum_line` takes the
line for a `mining.notify`, and `parse_notify` stores the same notify again (`notify_round_trip`).
-/

namespace Vek280Miner.Sw

/-! ## The message -/

/-- No control characters. -/
def NoControl (s : List Char) : Prop := ∀ c ∈ s, IsPrintable c

instance (s : List Char) : Decidable (NoControl s) := inferInstanceAs (Decidable (∀ c ∈ s, IsPrintable c))

/-- A notify whose strings have no control characters. -/
structure Printable (notify : StratumNotify) : Prop where
  jobId : NoControl notify.jobId
  prevhash : NoControl notify.prevhash
  coinb1 : NoControl notify.coinb1
  coinb2 : NoControl notify.coinb2
  merkle : ∀ branch ∈ notify.merkle, NoControl branch
  version : NoControl notify.version
  nbits : NoControl notify.nbits
  ntime : NoControl notify.ntime

/-- The strings of the branches. -/
def branchStrings (merkle : List (CStr 65)) (h : ∀ branch ∈ merkle, NoControl branch) : List JsonString :=
  merkle.pmap (fun branch hb => JsonString.ofText branch.1 hb) h

/-- `params`. -/
def notifyParams (notify : StratumNotify) (h : Printable notify) : List Json :=
  [.str (.ofText notify.jobId h.jobId), .str (.ofText notify.prevhash h.prevhash), .str (.ofText notify.coinb1 h.coinb1),
    .str (.ofText notify.coinb2 h.coinb2), .arr ((branchStrings notify.merkle h.merkle).map .str),
    .str (.ofText notify.version h.version), .str (.ofText notify.nbits h.nbits), .str (.ofText notify.ntime h.ntime),
    .bool notify.cleanJobs]

/-- The message. -/
def notifyJson (notify : StratumNotify) (h : Printable notify) : Json :=
  .obj [(idName, .null), (.ofText "method".toList (by decide), .str notifyMethod),
    (.ofText "params".toList (by decide), .arr (notifyParams notify h))]

/-! ## Its lexemes -/

variable {notify : StratumNotify} {s t : List Char}

/-- A string and the comma behind it. -/
def element (text : List Char) (h : NoControl text) : List (List Char) := [(JsonString.ofText text h).quoted, [',']]

theorem lexemes_notifyJson (h : Printable notify) : (notifyJson notify h).lexemes =
    [['{'], nameLexeme "id".toList, [':'], "null".toList, [',']] ++
      ([nameLexeme "method".toList, [':'], nameLexeme "mining.notify".toList, [',']] ++
      ([nameLexeme "params".toList, [':'], ['[']] ++
      (element notify.jobId h.jobId ++ (element notify.prevhash h.prevhash ++ (element notify.coinb1 h.coinb1 ++
      (element notify.coinb2 h.coinb2 ++
      ((['['] :: (commaSep ((branchStrings notify.merkle h.merkle).map fun str => [str.quoted]) ++ [[']']])) ++ ([[',']] ++
      (element notify.version h.version ++ (element notify.nbits h.nbits ++ (element notify.ntime h.ntime ++
      ([if notify.cleanJobs then "true".toList else "false".toList] ++ [[']'], ['}']])))))))))))) := by
  have hmerkle : elementLexemes ((branchStrings notify.merkle h.merkle).map Json.str) =
      (branchStrings notify.merkle h.merkle).map fun str => [str.quoted] := by
    rw [elementLexemes_eq_map, List.map_map]
    exact List.map_congr_left fun str _ => by rw [Function.comp_apply, Json.lexemes]
  simp only [notifyJson, notifyParams, Json.lexemes, memberLexemes, elementLexemes, commaSep_cons_cons, commaSep_singleton,
    hmerkle, element, List.cons_append, List.nil_append, List.append_assoc]
  rfl

/-! ## Where the members are found -/

/-- The member in front: no other name begins in it. -/
theorem strstr_skip_id {k : Char} {needle : List Char} (hk : k ≠ '"') (hi : k ≠ 'i') (hc : k ≠ ':') (hb : isBlank k = false)
    (h : Reads [['{'], nameLexeme "id".toList, [':'], "null".toList, [',']] s t) :
    strstr ('"' :: k :: needle) s = strstr ('"' :: k :: needle) t := by
  obtain ⟨r1, h1, h⟩ := reads_cons.1 h
  obtain ⟨r2, h2, h⟩ := reads_cons.1 h
  obtain ⟨r3, h3, h⟩ := reads_cons.1 h
  obtain ⟨r4, h4, h5⟩ := reads_cons.1 h
  have hnext : deref r2 ≠ k := deref_reads_ne h3 (by simp) hb (Ne.symm hc)
  rw [strstr_reads_plain h1 (by decide), strstr_reads_name h2 (by decide) (Ne.symm hi) hk hnext,
    strstr_reads_plain h3 (by decide), strstr_reads_plain h4 (by decide), strstr_reads_plain h5 (by decide)]

/-- The method is read. -/
theorem jsonMethodIs_notify {r : List Char}
    (hid : Reads [['{'], nameLexeme "id".toList, [':'], "null".toList, [',']] s r)
    (h : Reads [nameLexeme "method".toList, [':'], nameLexeme "mining.notify".toList, [',']] r t) :
    jsonMethodIs s "mining.notify".toList = true := by
  obtain ⟨r1, h1, h⟩ := reads_cons.1 h
  obtain ⟨r2, h2, h⟩ := reads_cons.1 h
  obtain ⟨r3, h3, -⟩ := reads_cons.1 h
  have hfind : strstr "\"method\"".toList s = some (nameLexeme "method".toList ++ r1) :=
    (strstr_skip_id (by decide) (by decide) (by decide) (by decide) hid).trans (strstr_reads_found h1)
  have hcolon : skipWs ((nameLexeme "method".toList ++ r1).drop 8) = ':' :: r2 := skipWs_reads_one h2 (by decide)
  have hread : readJsonString r2 = some ((CStr.copy "mining.notify".toList : CStr 64), r3) :=
    readJsonString_quoted (show Reads [notifyMethod.quoted] r2 r3 from h3)
  rw [jsonMethodIs, hfind]
  dsimp only
  rw [hcolon, deref_cons, if_neg (by decide), List.tail_cons, hread]
  rfl

/-- The array of `params` is found. -/
theorem findParamsArray_notify {r u : List Char}
    (hid : Reads [['{'], nameLexeme "id".toList, [':'], "null".toList, [',']] s r)
    (hmethod : Reads [nameLexeme "method".toList, [':'], nameLexeme "mining.notify".toList, [',']] r u)
    (h : Reads [nameLexeme "params".toList, [':'], ['[']] u t) : findParamsArray s = some t := by
  obtain ⟨r1, h1, hmethod⟩ := reads_cons.1 hmethod
  obtain ⟨r2, h2, hmethod⟩ := reads_cons.1 hmethod
  obtain ⟨r3, h3, h4⟩ := reads_cons.1 hmethod
  obtain ⟨r5, h5, h⟩ := reads_cons.1 h
  obtain ⟨r6, h6, h7⟩ := reads_cons.1 h
  have hskip : strstr "\"params\"".toList r = strstr "\"params\"".toList u := by
    have hcolon : deref r1 ≠ 'p' := deref_reads_ne h2 (by simp) (by decide) (by decide)
    have hcomma : deref r3 ≠ 'p' := deref_reads_ne h4 (by simp) (by decide) (by decide)
    show strstr ('"' :: 'p' :: "arams\"".toList) r = strstr ('"' :: 'p' :: "arams\"".toList) u
    rw [strstr_reads_name h1 (by decide) (by decide) (by decide) hcolon, strstr_reads_plain h2 (by decide),
      strstr_reads_name h3 (by decide) (by decide) (by decide) hcomma, strstr_reads_plain h4 (by decide)]
  have hfind : strstr "\"params\"".toList s = some (nameLexeme "params".toList ++ r5) :=
    ((strstr_skip_id (by decide) (by decide) (by decide) (by decide) hid).trans hskip).trans (strstr_reads_found h5)
  rw [findParamsArray, hfind, Option.bind_some, strchr_skip (by decide), strchr_reads h6 (by decide) (by decide),
    strchr_reads_found h7 (by decide)]
  rfl

/-! ## The elements are read back -/

theorem copy_unescaped {n : Nat} (text : CStr (n + 1)) (h : NoControl text) :
    (CStr.copy (unescaped (.ofText text.1 h)) : CStr (n + 1)) = text := by
  refine Subtype.ext ?_
  have hlen := text.2
  show (unescaped (JsonString.ofText text.1 h)).take n = text.1
  rw [unescaped_ofText text.1 h, List.take_of_length_le (by omega)]

theorem paramsString_element {n : Nat} {text : CStr (n + 1)} {h : NoControl text} (hr : Reads (element text.1 h) s t) :
    paramsString s = some (text, t) := by
  rw [paramsString_reads hr, copy_unescaped]

theorem map_branchStrings (merkle : List (CStr 65)) (h : ∀ branch ∈ merkle, NoControl branch) :
    (branchStrings merkle h).map (fun str => (CStr.copy (unescaped str) : CStr 65)) = merkle := by
  induction merkle with
  | nil => rfl
  | cons branch merkle ih =>
    rw [branchStrings, List.pmap_cons, List.map_cons, copy_unescaped]
    exact congrArg (branch :: ·) (ih fun b hb => h b (List.mem_cons_of_mem branch hb))

theorem paramsMerkleArray_branches {merkle : List (CStr 65)} {h : ∀ branch ∈ merkle, NoControl branch} {r : List Char}
    (hlen : merkle.length ≤ 16)
    (harr : Reads (['['] :: (commaSep ((branchStrings merkle h).map fun str => [str.quoted]) ++ [[']']])) s r)
    (hcomma : Reads [[',']] r t) : paramsMerkleArray s = some (⟨merkle, hlen⟩, t) := by
  obtain ⟨r1, hopen, hrest⟩ := reads_cons.1 harr
  have hbranches : (branchStrings merkle h).map (fun str => (CStr.copy (unescaped str) : CStr 65)) = merkle :=
    map_branchStrings merkle h
  have hslots : (branchStrings merkle h).length ≤ 16 := by rwa [branchStrings, List.length_pmap]
  obtain ⟨hl, hloop⟩ := merkleArrayLoop_reads hslots hrest
  rw [paramsMerkleArray]
  dsimp only
  rw [skipWs_reads_one hopen (by decide), deref_cons, if_neg (by decide), List.tail_cons, hloop]
  simp only [Option.map_some, hbranches, skipComma_reads hcomma]

theorem paramsBool_reads {b : Bool} (h : Reads [if b then "true".toList else "false".toList] s t) :
    ∃ u, paramsBool s = some (b, u) := by
  cases b with
  | true =>
    have hs : skipWs s = "true".toList ++ t := skipWs_reads h (by decide) (by decide)
    rw [paramsBool, hs]
    exact ⟨_, rfl⟩
  | false =>
    have hs : skipWs s = "false".toList ++ t := skipWs_reads h (by decide) (by decide)
    rw [paramsBool, hs]
    exact ⟨_, rfl⟩

/-- The lexemes of the message in the line. -/
theorem reads_notify (h : Printable notify) {text : List Char} (htext : (notifyJson notify h).Text text) (behind : List Char) :
    ∃ r p q, Reads [['{'], nameLexeme "id".toList, [':'], "null".toList, [',']] (terminated text behind) r ∧
      Reads [nameLexeme "method".toList, [':'], nameLexeme "mining.notify".toList, [',']] r p ∧
      Reads [nameLexeme "params".toList, [':'], ['[']] p q ∧
      ∃ t, Reads (element notify.jobId h.jobId ++ (element notify.prevhash h.prevhash ++ (element notify.coinb1 h.coinb1 ++
        (element notify.coinb2 h.coinb2 ++
        ((['['] :: (commaSep ((branchStrings notify.merkle h.merkle).map fun str => [str.quoted]) ++ [[']']])) ++ ([[',']] ++
        (element notify.version h.version ++ (element notify.nbits h.nbits ++ (element notify.ntime h.ntime ++
        ([if notify.cleanJobs then "true".toList else "false".toList] ++ [[']'], ['}']])))))))))) q t := by
  obtain ⟨blanks, -, hreads⟩ := htext
  have hline := hreads.behind ('\x00' :: behind)
  rw [lexemes_notifyJson] at hline
  obtain ⟨r, hid, hline⟩ := reads_append.1 hline
  obtain ⟨p, hmethod, hline⟩ := reads_append.1 hline
  obtain ⟨q, hparams, hline⟩ := reads_append.1 hline
  exact ⟨r, p, q, hid, hmethod, hparams, _, hline⟩

theorem parseNotify_notify (h : Printable notify) {text : List Char} (htext : (notifyJson notify h).Text text)
    (behind : List Char) : parseNotify (terminated text behind) = some notify := by
  obtain ⟨r, p, q, hid, hmethod, hparams, t, hline⟩ := reads_notify h htext behind
  obtain ⟨p1, h1, hline⟩ := reads_append.1 hline
  obtain ⟨p2, h2, hline⟩ := reads_append.1 hline
  obtain ⟨p3, h3, hline⟩ := reads_append.1 hline
  obtain ⟨p4, h4, hline⟩ := reads_append.1 hline
  obtain ⟨q, h5, hline⟩ := reads_append.1 hline
  obtain ⟨p5, hcomma, hline⟩ := reads_append.1 hline
  obtain ⟨p6, h6, hline⟩ := reads_append.1 hline
  obtain ⟨p7, h7, hline⟩ := reads_append.1 hline
  obtain ⟨p8, h8, hline⟩ := reads_append.1 hline
  obtain ⟨p9, h9, -⟩ := reads_append.1 hline
  obtain ⟨u, hbool⟩ := paramsBool_reads h9
  rw [parseNotify, findParamsArray_notify hid hmethod hparams]
  simp only [Option.bind_eq_bind, Option.bind_some, paramsString_element h1, paramsString_element h2,
    paramsString_element h3, paramsString_element h4, paramsMerkleArray_branches notify.merkle_count h5 hcomma,
    paramsString_element h6, paramsString_element h7, paramsString_element h8, hbool, Option.pure_def]

/-- **Round trip.** -/
theorem notify_round_trip (notify : StratumNotify) (h : Printable notify) {text : List Char}
    (htext : (notifyJson notify h).Text text) (behind : List Char) :
    jsonMethodIs (terminated text behind) "mining.notify".toList = true ∧
      parseNotify (terminated text behind) = some notify := by
  obtain ⟨r, p, q, hid, hmethod, -⟩ := reads_notify h htext behind
  exact ⟨jsonMethodIs_notify hid hmethod, parseNotify_notify h htext behind⟩

theorem printable_mock : Printable (mockNotify zeroPrevhash) := by
  constructor <;> decide

theorem notify_round_trip_mock :
    jsonMethodIs (terminated (notifyJson _ printable_mock).lexemes.flatten []) "mining.notify".toList = true ∧
      parseNotify (terminated (notifyJson _ printable_mock).lexemes.flatten []) = some (mockNotify zeroPrevhash) :=
  notify_round_trip (mockNotify zeroPrevhash) printable_mock (Json.text_compact _) []

end Vek280Miner.Sw
