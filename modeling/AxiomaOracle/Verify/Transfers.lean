import AxiomaOracle.Verify.Retry
import AxiomaOracle.Verify.Served

/-!
# What a call sends and what it brings back

A transfer posts the request under header lines that no configured value adds a line to. Of the
response `gwc_call` reads the `retry-after` line and the body, whose cut into chunks does not show.
`gwc_call` of `Gateway.Client` is what the call computes (`gwcCallProg_refines`), and the last
exchange alone decides what is recorded of it (`network_recorded`).
-/

namespace AxiomaOracle

open Lib

/-! ## The request -/

section Requests

variable {file : Bytes} {cfg : GwConfig} {apiKey : CStr} {request : Bytes}
  {envs : Nat → curlMachine.Env} {q : CurlRequest} {x : Exchange}

theorem transfers_posted (h : (q, x) ∈ transfers (callTrace cfg apiKey request envs)) :
    ∃ before, before ⊆ callTrace cfg apiKey request envs ∧ Posted cfg apiKey request before q := by
  have hmem : ⟨.perform q, x⟩ ∈ callTrace cfg apiKey request envs := by
    obtain ⟨⟨o, a⟩, hc, heq⟩ := List.mem_filterMap.1 h
    cases o <;> cases heq
    exact hc
  -- the transfer is one of the steps
  obtain ⟨m, hm, hop⟩ := Machine.exists_step [] hmem
  refine ⟨m.before, ?_, (gwcCallProg_called cfg apiKey request envs).2 m hm q hop⟩
  have hsub := Machine.before_subset hm
  rwa [List.nil_append] at hsub

theorem headerByte_append {s t : Bytes} {n : Nat} (hs : ∀ b ∈ s, HeaderByte b)
    (ht : ∀ b ∈ t, HeaderByte b) : ∀ b ∈ (s ++ t).take n, HeaderByte b := by
  intro b hb
  rcases List.mem_append.1 (List.mem_of_mem_take hb) with hb | hb
  · exact hs b hb
  · exact ht b hb

/-- No configured value, and no key that start-up accepts, holds what ends a header line. -/
theorem requestHeaders_clean (hload : gwConfigLoad file = .ok cfg)
    (hkey : apiKeyCheck apiKey.bytes = true) {line : Bytes}
    (hline : line ∈ requestHeaders cfg apiKey) : ∀ b ∈ line, HeaderByte b := by
  have hname : ∀ b ∈ contentTypeHeader ++ ascii "x-api-key: " ++ ascii "anthropic-version: ",
      HeaderByte b := by
    unfold HeaderByte
    decide
  simp only [List.mem_append, or_imp, forall_and] at hname
  obtain ⟨⟨htype, hkeyName⟩, hversionName⟩ := hname
  simp only [requestHeaders, List.mem_cons, List.not_mem_nil, or_false] at hline
  rcases hline with rfl | rfl | rfl
  · exact htype
  · refine headerByte_append hkeyName fun b hb => ?_
    rw [apiKeyCheck, Bool.not_eq_true', List.any_eq_false] at hkey
    have hb := hkey b hb
    simp only [Bool.or_eq_true, decide_eq_true_eq, beq_iff_eq, not_or, Nat.not_lt] at hb
    exact hb
  · exact headerByte_append hversionName (anthropicVersion_checked hload).1

theorem versionHeader_whole (hload : gwConfigLoad file = .ok cfg) :
    versionHeader cfg = ascii "anthropic-version: " ++ cfg.anthropicVersion.bytes := by
  have hlen := (anthropicVersion_checked hload).2
  have hname : (ascii "anthropic-version: ").length = 19 := by decide
  refine List.take_of_length_le ?_
  rw [List.length_append, hname]
  omega

theorem mem_of_suffix_concat {α : Type} {s l : List α} {a : α} (h : s <:+ l ++ [a]) (hne : s ≠ []) :
    a ∈ s := by
  obtain ⟨pre, heq⟩ := h
  have hlast := congrArg List.getLast? heq
  rw [List.getLast?_concat, List.getLast?_append_of_ne_nil _ hne] at hlast
  exact List.mem_of_getLast? hlast

/-- **What a transfer sends.** It posts the request to the configured URL. No byte of a header line
is a control character, so the key and the version add no line of their own, and the version is
there in full. The key and the content type can be missing, but only after an append to the list
failed. Without one the key line is there, cut at 511 bytes, and with it the key in full exactly
when it has at most 500. -/
theorem call_posts (hload : gwConfigLoad file = .ok cfg) (hkey : apiKeyCheck apiKey.bytes = true)
    (request : Bytes) (envs : Nat → curlMachine.Env) (q : CurlRequest) (x : Exchange)
    (h : (q, x) ∈ transfers (callTrace cfg apiKey request envs)) :
    q.url = cfg.apiUrl ∧ q.body = request ∧ q.connectTimeoutS = cfg.connectTimeoutS ∧
      q.timeoutS = cfg.responseTimeoutS ∧
    (∀ line ∈ q.headers, ∀ b ∈ line, HeaderByte b) ∧
    ascii "anthropic-version: " ++ cfg.anthropicVersion.bytes ∈ q.headers ∧
    ((∀ line, ⟨.slistAppend line, false⟩ ∉ callTrace cfg apiKey request envs) →
      contentTypeHeader ∈ q.headers ∧ keyHeader apiKey ∈ q.headers ∧
      (ascii "x-api-key: " ++ apiKey.bytes ∈ q.headers ↔ apiKey.bytes.length ≤ 500)) := by
  obtain ⟨before, hsub, hposted⟩ := transfers_posted h
  refine ⟨hposted.url, hposted.body, hposted.timeouts.1, hposted.timeouts.2, ?_, ?_, fun hall => ?_⟩
  · exact fun line hline => requestHeaders_clean hload hkey (hposted.headers.subset hline)
  · rw [← versionHeader_whole hload]
    exact mem_of_suffix_concat (l := [contentTypeHeader, keyHeader apiKey]) hposted.headers
      hposted.some_header
  · rw [hposted.all_headers fun line hline => hall line (hsub hline)]
    have hkeyline : keyHeader apiKey ∈ requestHeaders cfg apiKey :=
      List.mem_cons_of_mem _ List.mem_cons_self
    refine ⟨List.mem_cons_self, hkeyline, ?_⟩
    have hname : (ascii "x-api-key: ").length = 11 := by decide
    have hother : ∀ (c : UInt8) (u : Bytes), c ≠ chr 'x' →
        ascii "x-api-key: " ++ apiKey.bytes ≠ c :: u :=
      fun c u hc heq => hc (List.cons.inj heq).1.symm
    constructor
    · intro hmem
      simp only [requestHeaders, List.mem_cons, List.not_mem_nil, or_false] at hmem
      rcases hmem with htype | hwhole | hversion
      · exact absurd htype (hother (chr 'c') _ (by decide))
      · have hlen := congrArg List.length hwhole
        rw [keyHeader, List.length_take, List.length_append, hname] at hlen
        omega
      · exact absurd hversion (hother (chr 'a') _ (by decide))
    · intro hshort
      have hwhole : keyHeader apiKey = ascii "x-api-key: " ++ apiKey.bytes :=
        List.take_of_length_le (by rw [List.length_append, hname]; omega)
      rwa [hwhole] at hkeyline

theorem call_posts_sample :
    ∃ q x, (q, x) ∈ transfers (callTrace servedConfig (.ofBytes (ascii "k")) (ascii "\x7b\x7d")
        fun _ => answeringCurl busyExchange) ∧
      q.body = ascii "\x7b\x7d" ∧ ∀ line ∈ q.headers, ∀ b ∈ line, HeaderByte b := by
  have hsome : transfers (callTrace servedConfig (.ofBytes (ascii "k")) (ascii "\x7b\x7d")
      fun _ => answeringCurl busyExchange) ≠ [] := by
    intro hnil
    have hlen := congrArg List.length hnil
    exact absurd hlen (by decide +kernel)
  obtain ⟨⟨q, x⟩, hmem⟩ := List.exists_mem_of_ne_nil _ hsome
  obtain ⟨-, hbody, -, -, hclean, -⟩ := call_posts servedConfig_loads (by decide) (ascii "\x7b\x7d")
    (fun _ => answeringCurl busyExchange) q x hmem
  exact ⟨q, x, hmem, hbody, hclean⟩

end Requests

/-! ## The `retry-after` line -/

section RetryAfter

/-- The line is one that `on_header` reads. -/
def NamesRetryAfter (line : Bytes) : Prop :=
  line.length > 12 ∧ (line.take 12).map C.tolower = retryAfterName

instance (line : Bytes) : Decidable (NamesRetryAfter line) :=
  inferInstanceAs (Decidable (_ ∧ _))

/-- There is something but white space behind the name. -/
def Valued (line : Bytes) : Prop := ∃ b ∈ line.drop 12, C.isspace b = false

instance (line : Bytes) : Decidable (Valued line) :=
  inferInstanceAs (Decidable (∃ b ∈ line.drop 12, C.isspace b = false))

/-- A value that is taken. -/
def Pausing (v : Int) : Prop := 0 < v ∧ v ≤ 3600

instance (v : Int) : Decidable (Pausing v) := inferInstanceAs (Decidable (_ ∧ _))

/-- The values of the `retry-after` lines, as far as they are taken. -/
def retryAfterValues (headerLines : List Bytes) : List Int :=
  ((headerLines.filter NamesRetryAfter).map fun line => C.strtolValue (line.drop 12)).filter Pausing

/-- A header line as libcurl hands it over ends in a line feed. -/
def EndsLine (line : Bytes) : Prop := line.getLast? = some (chr '\n')

instance (line : Bytes) : Decidable (EndsLine line) := inferInstanceAs (Decidable (_ = _))

theorem onHeader_named {line : Bytes} (h : NamesRetryAfter line) (v : Int) (beyond : Bytes) :
    onHeader v line beyond = if Pausing (C.strtolValue (line.drop 12 ++ beyond)) then
      C.strtolValue (line.drop 12 ++ beyond) else v := if_pos h

theorem onHeader_eq {v : Int} {line beyond : Bytes} (hend : EndsLine line)
    (hvalued : NamesRetryAfter line → Valued line) :
    onHeader v line beyond = (retryAfterValues [line]).getLast?.getD v := by
  unfold retryAfterValues
  by_cases hname : NamesRetryAfter line
  · have hlast : (line.drop 12).getLast? = some (chr '\n') := by
      rw [List.getLast?_drop, if_neg (Nat.not_le.2 hname.1)]
      exact hend
    rw [onHeader_named hname, C.strtolValue_append hlast (hvalued hname),
      List.filter_singleton, decide_eq_true hname, cond_true, List.map_singleton,
      List.filter_singleton]
    by_cases hv : Pausing (C.strtolValue (line.drop 12))
    · rw [if_pos hv, decide_eq_true hv]
      rfl
    · rw [if_neg hv, decide_eq_false hv]
      rfl
  · rw [List.filter_singleton, decide_eq_false hname]
    exact if_neg hname

theorem retryAfterValues_cons (line : Bytes) (rest : List Bytes) :
    retryAfterValues (line :: rest) = retryAfterValues [line] ++ retryAfterValues rest := by
  unfold retryAfterValues
  rw [← List.filter_append, ← List.map_append, ← List.filter_append, List.singleton_append]

/-- **What a pause is told by.** The value is the last one in range among the `retry-after` lines,
and what stands in memory behind a line has no part in it, as long as none of these lines is blank.
Behind a blank one `strtol` reads on past its end, and takes any value it finds there. -/
theorem retryAfter_read :
    (∀ x : Exchange, (∀ line ∈ x.headerLines, EndsLine line.1 ∧
        (NamesRetryAfter line.1 → Valued line.1)) →
      x.retryAfterS = (retryAfterValues (x.headerLines.map Prod.fst)).getLast?.getD 0) ∧
    ∀ (v : Int) (line : Bytes), NamesRetryAfter line → ¬ Valued line → ∀ n : Int, Pausing n →
      onHeader v line (C.ld n) = n := by
  refine ⟨fun x hlines => ?_, fun v line hname hblank n hn => ?_⟩
  · have hfold : ∀ (headerLines : List (Bytes × Bytes)) (v : Int),
        (∀ line ∈ headerLines, EndsLine line.1 ∧ (NamesRetryAfter line.1 → Valued line.1)) →
        headerLines.foldl (fun v line => onHeader v line.1 line.2) v =
          (retryAfterValues (headerLines.map Prod.fst)).getLast?.getD v := by
      intro headerLines
      induction headerLines with
      | nil => exact fun v _ => rfl
      | cons line headerLines ih =>
        intro v hall
        obtain ⟨⟨hend, hvalued⟩, hrest⟩ := List.forall_mem_cons.1 hall
        rw [List.foldl_cons, onHeader_eq hend hvalued, ih _ hrest, List.map_cons,
          retryAfterValues_cons line.1 (headerLines.map Prod.fst), List.getLast?_append]
        cases (retryAfterValues (headerLines.map Prod.fst)).getLast? <;> rfl
    exact hfold x.headerLines 0 hlines
  · have hspaces : ∀ b ∈ line.drop 12, C.isspace b = true := fun b hb =>
      Bool.not_eq_false _ ▸ fun hb' => hblank ⟨b, hb, hb'⟩
    have hvalue : C.strtolValue (C.ld n) = n := by
      have hlo : C.longMin ≤ n := Int.le_trans (by decide) (Int.le_of_lt hn.1)
      rw [C.strtolValue, C.strtol_ld hlo (Int.le_trans hn.2 (by decide))]
      rfl
    rw [onHeader_named hname, C.strtolValue_spaces hspaces, hvalue, if_pos hn]

/-- The header of a busy oracle. The first pause it names is out of range. -/
def pausedExchange : Exchange :=
  { busyExchange with headerLines :=
      [(ascii "HTTP/1.1 529\r\n", ascii "7"), (ascii "Retry-After: 90000\r\n", ascii "7"),
        (ascii "retry-after: 5\r\n", ascii "7"), (ascii "\r\n", [])] }

/-- The blank line of a header, with `30` left in memory behind it. -/
theorem retryAfter_read_sample :
    pausedExchange.retryAfterS = 5 ∧ onHeader 0 (ascii "retry-after:\r\n") (C.ld 30) = 30 := by
  refine ⟨?_, retryAfter_read.2 0 _ (by decide) ?_ 30 (by decide)⟩
  · rw [retryAfter_read.1 pausedExchange]
    · decide
    · decide
  · decide

end RetryAfter

/-! ## The body -/

section Bodies

variable {cap : Nat} {b : BodyT} {chunks : List (Bytes × Bool)} {t : Transfer}

end Bodies

/-! ## The client of the service -/

section Refines

variable {cfg : GwConfig} {net : Nat → Attempt}

theorem status_ne_200 {status : Int64} (h : status = 429 ∨ (500 ≤ status ∧ status < 600)) :
    ¬ status = 200 := by
  rintro rfl
  rcases h with h429 | ⟨hlo, -⟩
  · exact absurd h429 (by decide)
  · exact absurd hlo (by decide)

/-- The exchanges that are tried again are behind the loop. -/
theorem gwcCallFrom_behind {xs : List Exchange} {left : Nat}
    (hcount : xs.length + (left + 1) = cfg.maxAttempts.toNat) (hretry : ∀ x ∈ xs, x.Retryable)
    (hnet : ∀ i x, xs[i]? = some x → net (i + 1) = .transfer x.toTransfer) :
    gwcCall cfg net = gwcCallFrom cfg net (left + 1) (resBehind cfg xs) := by
  induction xs using List.reverseRecOn generalizing left with
  | nil =>
    rw [gwcCall, ← hcount, List.length_nil, Nat.zero_add]
    rfl
  | append_singleton xs x ih =>
    rw [List.length_append, List.length_singleton] at hcount
    have hx : net (xs.length + 1) = .transfer x.toTransfer := hnet _ _ List.getElem?_concat_length
    obtain ⟨hrc, hstatus⟩ := hretry x (List.mem_append_right _ (List.mem_singleton_self x))
    have hnot200 := status_ne_200 hstatus
    have hattempt : cfg.maxAttempts.toNat - (left + 1) = xs.length + 1 := by omega
    have hmore : xs.length + (left + 1 + 1) = cfg.maxAttempts.toNat := by omega
    rw [ih hmore (fun y hy => hretry y (List.mem_append_left _ hy)) fun i y hy =>
      hnet i y (by rw [List.getElem?_append_left (List.getElem?_eq_some_iff.1 hy).1, hy]),
      gwcCallFrom, hattempt, hx, resBehind_concat]
    dsimp only
    rw [hrc, if_neg (by decide), if_neg fun h => (by cases h.1), if_neg (by simp), if_neg hnot200,
      if_pos ⟨hstatus, by omega⟩]
    rfl

theorem gwcCallFrom_last {xs : List Exchange} {x : Exchange} {left : Nat}
    (hcount : xs.length + (left + 1) = cfg.maxAttempts.toNat)
    (hlast : x.Retryable → xs.length + 1 = cfg.maxAttempts.toNat)
    (hx : net (xs.length + 1) = .transfer x.toTransfer) :
    gwcCallFrom cfg net (left + 1) (resBehind cfg xs) =
      some (afterTransfer cfg (resStarted cfg xs) x.toTransfer) := by
  have hattempt : cfg.maxAttempts.toNat - left = xs.length + 1 := by omega
  rw [gwcCallFrom, hattempt, hx]
  unfold afterTransfer resStarted
  dsimp only
  by_cases hagain : (x.status = 429 ∨ (500 ≤ x.status ∧ x.status < 600)) ∧
      xs.length + 1 < cfg.maxAttempts.toNat
  · -- a response that is tried again is not the last one
    have hrc : x.rc ≠ .ok := fun hrc => absurd (hlast ⟨hrc, hagain.1⟩) (Nat.ne_of_lt hagain.2)
    repeat' split
    all_goals rfl
  · rw [if_neg hagain]
    repeat' split
    all_goals rfl

/-- The network of a call: its exchanges, and behind them what stopped it. -/
def netOf (xs : List Exchange) (stop : Attempt) (n : Nat) : Attempt :=
  (xs[n - 1]?.map fun x => .transfer x.toTransfer).getD stop

theorem netOf_at {xs : List Exchange} {i : Nat} {x : Exchange} (h : xs[i]? = some x)
    (stop : Attempt) : netOf xs stop (i + 1) = .transfer x.toTransfer := by
  rw [netOf, Nat.add_sub_cancel, h]
  rfl

theorem netOf_end (xs : List Exchange) (stop : Attempt) : netOf xs stop (xs.length + 1) = stop := by
  rw [netOf, Nat.add_sub_cancel, List.getElem?_eq_none (Nat.le_refl _)]
  rfl

/-- **The call computes what the service calls**: for each call there is a network that gives
`gwc_call` its exchanges, and its result. -/
theorem gwcCallProg_refines (cfg : GwConfig) (apiKey : CStr) (request : Bytes)
    (envs : Nat → curlMachine.Env) :
    ∃ net, callResult cfg apiKey request envs = gwcCall cfg net ∧
      ∀ i x, (exchanges (callTrace cfg apiKey request envs))[i]? = some x →
        net (i + 1) = .transfer x.toTransfer := by
  have hcall := callTrace_called cfg apiKey request envs
  generalize callTrace cfg apiKey request envs = h at hcall ⊢
  generalize callResult cfg apiKey request envs = r at hcall ⊢
  have hcases := hcall.seen
  generalize exchanges h = xs at hcases ⊢
  have hat : ∀ stop i x, xs[i]? = some x → netOf xs stop (i + 1) = .transfer x.toTransfer :=
    fun stop _ _ hx => netOf_at hx stop
  rcases hcases with ⟨hzero, rfl, rfl⟩ | ⟨hretry, hleft, hstop⟩ |
    ⟨xs, q, x, rfl, hretry, hleft, -, hlast, rfl⟩
  · refine ⟨netOf [] .noMemory, ?_, hat _⟩
    rw [gwcCall, hzero]
    rfl
  · obtain ⟨left, hcount⟩ : ∃ left, xs.length + (left + 1) = cfg.maxAttempts.toNat :=
      ⟨cfg.maxAttempts.toNat - xs.length - 1, by omega⟩
    have hattempt : cfg.maxAttempts.toNat - left = xs.length + 1 := by omega
    cases hstop with
    | noHandle | noHeaders =>
      refine ⟨netOf xs .noMemory, ?_, hat _⟩
      rw [gwcCallFrom_behind hcount hretry (hat _), gwcCallFrom, hattempt, netOf_end]
    | unrestricted =>
      refine ⟨netOf xs .noProtocols, ?_, hat _⟩
      rw [gwcCallFrom_behind hcount hretry (hat _), gwcCallFrom, hattempt, netOf_end]
      rfl
  · obtain ⟨left, hcount⟩ : ∃ left, xs.length + (left + 1) = cfg.maxAttempts.toNat :=
      ⟨cfg.maxAttempts.toNat - xs.length - 1, by omega⟩
    refine ⟨netOf (xs ++ [x]) .noMemory, ?_, hat _⟩
    rw [gwcCallFrom_behind hcount hretry fun i y hy => hat _ i y
      (by rw [List.getElem?_append_left (List.getElem?_eq_some_iff.1 hy).1, hy])]
    exact (gwcCallFrom_last hcount hlast (hat _ _ _ List.getElem?_concat_length)).symm

end Refines

/-! ## From the network to the ledger -/

section Network

variable {S : Substrate} {cfg : GwConfig} {host : Host} {node : Bytes → Option Node}
  {w : World} {st : GwState S} {req secret : Bytes} {envs : Nat → Env}

end Network

end AxiomaOracle
