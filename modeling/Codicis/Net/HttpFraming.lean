/-
The framing of the requests that the parser completes.

Two headers say where a body ends.  `Framed` is the law that makes this unambiguous: not both
kinds of header, lengths that are numbers and agree, and `chunked` as the only coding.  The
parser checks most of it, but it takes an empty length for zero, and of several
`Transfer-Encoding` headers it looks only at the first.  `framed_iff` says that nothing else is
missing.
-/
import Codicis.Lib.Decimal
import Codicis.Net.HttpStream
import Mathlib.Data.List.DropRight

namespace Codicis

open Http

/-- The values of the headers with a name, in order. -/
def valuesOf (name : String) (hs : List HttpHeader) : List (List Char) :=
  (hs.filter fun h => iEquals h.name name.toList).map HttpHeader.value

def HttpRequest.values (r : HttpRequest) (name : String) : List (List Char) :=
  valuesOf name r.headers

/-- The codings of a request: the list over all its `Transfer-Encoding` headers. -/
def HttpRequest.codings (r : HttpRequest) : List (List Char) :=
  (r.values "Transfer-Encoding").flatMap fun v => (v.splitOn ',').map trimOws

/-- The end of the body is unambiguous. -/
structure HttpRequest.Framed (r : HttpRequest) : Prop where
  exclusive : r.values "Content-Length" = [] ∨ r.values "Transfer-Encoding" = []
  digits : ∀ v ∈ r.values "Content-Length", v ≠ [] ∧ ∀ c ∈ v, c.isDigit = true
  equal : ∀ v ∈ r.values "Content-Length", ∀ v' ∈ r.values "Content-Length", v = v'
  length : ∀ v ∈ r.values "Content-Length", r.body.length = Nat.ofDigitChars 10 v 0
  chunked : r.values "Transfer-Encoding" ≠ [] → ∃ item, r.codings = [item] ∧
    iEquals item "chunked".toList = true

namespace HttpRequestParser

variable {r : HttpRequest} {p p' : HttpRequestParser} {c v rest : List Char}
  {out : Option HttpRequest}

/-! ### What the parser has checked -/

section Values

variable {name : String} {x : HttpHeader} {hs : List HttpHeader}

lemma valuesOf_cons_of_true (h : iEquals x.name name.toList = true) :
    valuesOf name (x :: hs) = x.value :: valuesOf name hs := by
  rw [valuesOf, List.filter_cons, if_pos h, List.map_cons, valuesOf]

lemma valuesOf_cons_of_false (h : iEquals x.name name.toList = false) :
    valuesOf name (x :: hs) = valuesOf name hs := by
  rw [valuesOf, List.filter_cons, if_neg (by rw [h]; decide), valuesOf]

lemma header_eq_head? (r : HttpRequest) (name : String) :
    r.header name = (r.values name).head? := by
  rw [HttpRequest.header, HttpRequest.values, valuesOf, List.head?_map, List.head?_filter]

end Values

/-- A header is not a length, or it agrees with the length so far and takes its place. -/
lemma scanContentLength_spec {cl cl' : Option (List Char)} {x : HttpHeader}
    (h : scanContentLength cl x = .ok cl') :
    (iEquals x.name "Content-Length".toList = false ∧ cl' = cl) ∨
      (iEquals x.name "Content-Length".toList = true ∧ cl' = some x.value ∧
        ∀ v ∈ cl, trimOws v = trimOws x.value) := by
  unfold scanContentLength at h
  split_ifs at h with hx
  · exact .inl ⟨hx, (Except.ok.inj h).symm⟩
  · refine .inr ⟨Bool.eq_true_of_not_eq_false hx, ?_⟩
    cases cl with
    | none => exact ⟨(Except.ok.inj h).symm, fun v hv => absurd hv (by simp)⟩
    | some w =>
      simp only at h
      split_ifs at h with hw
      refine ⟨(Except.ok.inj h).symm, fun v hv => ?_⟩
      obtain rfl := Option.mem_some.1 hv
      exact (not_not.1 hw).symm

/-- The scan of the lengths: the last one is kept, and all others agree with it. -/
lemma scanContentLength_fold {hs : List HttpHeader} {cl cl' : Option (List Char)}
    (h : hs.foldlM scanContentLength cl = .ok cl') :
    cl' = (cl.toList ++ valuesOf "Content-Length" hs).getLast? ∧
      ∀ v ∈ cl.toList ++ valuesOf "Content-Length" hs, ∀ v' ∈ cl', trimOws v = trimOws v' := by
  induction hs generalizing cl with
  | nil =>
    obtain rfl : cl = cl' := Except.ok.inj h
    cases cl <;> simp [valuesOf]
  | cons x hs ih =>
    rw [List.foldlM_cons] at h
    obtain ⟨cl₁, hscan, h⟩ := bind_eq_ok h
    obtain ⟨hlast, hsame⟩ := ih h
    rcases scanContentLength_spec hscan with ⟨hx, rfl⟩ | ⟨hx, rfl, hagree⟩
    · rw [valuesOf_cons_of_false hx]
      exact ⟨hlast, hsame⟩
    · rw [valuesOf_cons_of_true hx]
      refine ⟨?_, fun v hv v' hv' => ?_⟩
      · rw [hlast, List.getLast?_append_of_ne_nil _ (List.cons_ne_nil _ _)]
        rfl
      · rcases List.mem_append.1 hv with hv | hv
        · rw [hagree v (Option.mem_toList.1 hv)]
          exact hsame x.value (by simp) v' hv'
        · exact hsame v hv v' hv'

lemma lengthDigits_eq_ok {cs : List Char} {len n : ℕ} (h : lengthDigits len cs = .ok n) :
    (∀ c ∈ cs, c.isDigit = true) ∧ n = Nat.ofDigitChars 10 cs len := by
  induction cs generalizing len with
  | nil => exact ⟨by simp, (Except.ok.inj h).symm⟩
  | cons c cs ih =>
    unfold lengthDigits at h
    split_ifs at h with hc hover
    obtain ⟨hdigits, rfl⟩ := ih h
    refine ⟨List.forall_mem_cons.2 ⟨isDigit_iff.2 hc, hdigits⟩, ?_⟩
    rw [Nat.ofDigitChars_cons, Nat.mul_comm]

/-- What is known of the headers of a request with a framing. -/
lemma resolveFraming_spec {maxBody : ℕ} {framing : Framing}
    (h : resolveFraming maxBody r = .ok framing) :
    (∀ v ∈ r.values "Content-Length", ∀ v' ∈ r.values "Content-Length", trimOws v = trimOws v') ∧
    match framing with
    | .none => r.values "Content-Length" = [] ∧ r.values "Transfer-Encoding" = []
    | .length n => n ≤ maxBody ∧ r.values "Transfer-Encoding" = [] ∧
        ∀ v ∈ r.values "Content-Length",
          (∀ c ∈ trimOws v, c.isDigit = true) ∧ n = Nat.ofDigitChars 10 (trimOws v) 0
    | .chunked => r.values "Content-Length" = [] ∧
        ∃ te, (r.values "Transfer-Encoding").head? = some te ∧
          iEquals (trimOws te) "chunked".toList = true := by
  obtain ⟨cl, hscan, h⟩ := bind_eq_ok h
  obtain ⟨hlast, hsame⟩ := scanContentLength_fold hscan
  rw [header_eq_head?] at h
  change cl = (r.values "Content-Length").getLast? at hlast
  change ∀ v ∈ r.values "Content-Length", _ at hsame
  refine ⟨fun v hv v' hv' => ?_, ?_⟩
  · obtain ⟨w, hw⟩ : ∃ w, w ∈ cl := by
      rw [hlast]
      exact ⟨_, List.getLast?_eq_some_getLast (List.ne_nil_of_mem hv)⟩
    rw [hsame v hv w hw, hsame v' hv' w hw]
  · cases hte : (r.values "Transfer-Encoding").head? with
    | some te =>
      rw [hte] at h
      cases cl with
      | some w => cases h
      | none =>
        simp only at h
        split_ifs at h with hchunked
        obtain rfl := Except.ok.inj h
        exact ⟨List.getLast?_eq_none_iff.1 hlast.symm, te, rfl, hchunked⟩
    | none =>
      rw [hte] at h
      have hnil := List.head?_eq_none_iff.1 hte
      cases cl with
      | some w =>
        obtain ⟨len, hlen, h⟩ := bind_eq_ok h
        obtain ⟨hdigits, rfl⟩ := lengthDigits_eq_ok hlen
        split_ifs at h with hmax
        obtain rfl := Except.ok.inj h
        refine ⟨not_lt.1 hmax, hnil, fun v hv => ?_⟩
        rw [hsame v hv w rfl]
        exact ⟨hdigits, rfl⟩
      | none =>
        obtain rfl := Except.ok.inj h
        exact ⟨List.getLast?_eq_none_iff.1 hlast.symm, hnil⟩

/-! ### What the parser keeps -/

/-- The values of the headers have no spaces around them. -/
def Trimmed (r : HttpRequest) : Prop := ∀ h ∈ r.headers, trimOws h.value = h.value

/-- What the parser knows of a complete request. -/
def Checked (r : HttpRequest) : Prop :=
  Trimmed r ∧ ∃ maxBody framing, resolveFraming maxBody r = .ok framing ∧
    ∀ n, framing = .length n → r.body.length = n

/-- What the parser knows of the request in hand. -/
def Knows (p : HttpRequestParser) : Prop :=
  match p.state with
  | .head => p.request.body = []
  | .bodyLength => Trimmed p.request ∧
      ∃ n, resolveFraming p.maxBodyBytes p.request = .ok (.length n) ∧
        p.request.body.length + p.bodyRemaining = n
  | .bodyChunked => Trimmed p.request ∧ resolveFraming p.maxBodyBytes p.request = .ok .chunked
  | .complete => Checked p.request
  | .error => True

lemma trimOws_trimOws (s : List Char) : trimOws (trimOws s) = trimOws s := by
  have htrim : ∀ s, trimOws s = (s.dropWhile isOws).rdropWhile isOws := fun _ => rfl
  -- what is left begins with a character that stays
  have hleft : (trimOws s).dropWhile isOws = trimOws s := by
    rw [htrim]
    cases ht : s.dropWhile isOws with
    | nil => simp
    | cons c t =>
      have hc : ¬ isOws c = true := by
        have := List.head_dropWhile_not isOws (l := s) (by simp [ht])
        simpa [ht] using this
      have hne : (c :: t).rdropWhile isOws ≠ [] := fun hnil =>
        hc (List.rdropWhile_eq_nil_iff.1 hnil c (by simp))
      obtain ⟨d, u, hu⟩ := List.exists_cons_of_ne_nil hne
      have hd : d = c := by
        have hpre := List.rdropWhile_prefix isOws (c :: t)
        rw [hu] at hpre
        exact (List.cons_prefix_cons.1 hpre).1
      rw [hu, hd, List.dropWhile_cons_of_neg hc]
  rw [htrim (trimOws s), hleft]
  exact List.rdropWhile_idempotent isOws _

lemma trimmed_of_parseHeaders {lines : List (List Char)} {hs : List HttpHeader}
    (h : parseHeaders lines = .ok hs) : ∀ x ∈ hs, trimOws x.value = x.value := by
  refine foldlM_invariant (I := fun hs => ∀ x ∈ hs, trimOws x.value = x.value) h (by simp) ?_
  intro hs line hs' _ hI hline
  obtain ⟨o, ho, rfl⟩ := map_eq_ok_iff.1 hline
  intro x hx
  rcases List.mem_append.1 hx with hx | hx
  · exact hI x hx
  · rw [Option.mem_toList] at hx
    unfold parseHeaderLine at ho
    split at ho
    · obtain rfl := Except.ok.inj ho
      cases hx
    · split_ifs at ho
      split at ho
      · cases ho
      · split_ifs at ho
        obtain rfl := Except.ok.inj ho
        obtain rfl := Option.mem_some.1 hx
        exact trimOws_trimOws _

lemma parseRequestLine_body {line : List Char} (h : parseRequestLine line = .ok r) :
    r.body = [] := by
  unfold parseRequestLine at h
  split at h
  · cases h
  · split at h
    · cases h
    · simp only at h
      split_ifs at h <;> exact Except.ok.inj h ▸ rfl

/-- A parsed head has a framing, and no body yet. -/
lemma parseHead_spec {maxBody : ℕ} {block : List Char} {framing : Framing}
    (h : parseHead maxBody block = .ok (r, framing)) :
    Trimmed r ∧ resolveFraming maxBody r = .ok framing ∧ r.body = [] := by
  obtain ⟨r₀, hline, h⟩ := bind_eq_ok h
  obtain ⟨headers, hheaders, h⟩ := bind_eq_ok h
  obtain ⟨framing', hframing, h⟩ := bind_eq_ok h
  obtain ⟨rfl, rfl⟩ := Prod.mk.inj (Except.ok.inj h)
  refine ⟨trimmed_of_parseHeaders hheaders, hframing, ?_⟩
  exact (parseRequestLine_body hline : r₀.body = [])

/-- Every turn keeps what the parser knows, and it knows the requests that it completes. -/
lemma Consumes.knows (h : Consumes p c p' out) (hk : Knows p) :
    Knows p' ∧ ∀ r ∈ out, Checked r := by
  unfold Knows at hk
  cases h with
  | head hs hfirst hmax hparse =>
    rename_i block r framing
    obtain ⟨htrim, hframing, hbody⟩ := parseHead_spec hparse
    refine ⟨?_, by simp⟩
    cases framing with
    | none => exact ⟨htrim, _, _, hframing, by simp⟩
    | chunked => exact ⟨htrim, hframing⟩
    | length n =>
      by_cases hn : n = 0
      · simp only [afterHead, Knows, hn, if_true]
        exact ⟨htrim, _, _, hframing, by simp [hbody, hn]⟩
      · simp only [afterHead, Knows, hn, if_false]
        exact ⟨htrim, n, hframing, by simp [hbody]⟩
  | bodyLength hs hlen =>
    rw [hs] at hk
    obtain ⟨htrim, n, hframing, hsum⟩ := hk
    refine ⟨⟨htrim, _, _, hframing, ?_⟩, by simp⟩
    simp only [HttpRequestParser.addBody, List.length_append, Framing.length.injEq, forall_eq']
    omega
  | lastSize hs hp hfirst hsize =>
    rw [hs] at hk
    simpa [Knows, hs] using hk
  | size hs hp hfirst hsize hn hmax =>
    rw [hs] at hk
    simpa [Knows, hs] using hk
  | data hs hp hlen =>
    rw [hs] at hk
    refine ⟨?_, by simp⟩
    simp only [Knows, HttpRequestParser.addBody, hs]
    exact hk
  | dataCrlf hs hp =>
    rw [hs] at hk
    simpa [Knows, hs] using hk
  | trailer hs hp hfirst hline =>
    simpa [Knows] using hk
  | trailerEnd hs hp =>
    rw [hs] at hk
    exact ⟨⟨hk.1, _, _, hk.2, by simp⟩, by simp⟩
  | complete hs =>
    rw [hs] at hk
    exact ⟨rfl, by simpa using hk⟩

/-- To wait keeps it, too. -/
lemma knows_of_wait (h : p.step v = .wait p' rest) (hk : Knows p) : Knows p' := by
  rcases explains_of_step h with ⟨rfl, -⟩ | ⟨hs, hlen, rfl, -⟩ | ⟨hs, hp, hlen, rfl, -⟩
  · exact hk
  · simp only [Knows, addBody, hs] at hk ⊢
    obtain ⟨htrim, n, hframing, hsum⟩ := hk
    refine ⟨htrim, n, hframing, ?_⟩
    rw [List.length_append]
    omega
  · simp only [Knows, addBody, hs] at hk ⊢
    exact hk

/-- In whatever chunks a stream comes, its complete requests have been checked. -/
theorem checked_of_feedAll {maxHeaderBytes maxBodyBytes : ℕ} {chunks : List (List Char)}
    (h : r ∈ (machine.feedAll (fresh maxHeaderBytes maxBodyBytes) chunks).outs) : Checked r := by
  refine Resumable.Parser.feedAll_invariant (P := machine) (I := Knows) ?_ ?_ ?_ chunks r h
  · intro p v p' rest out hk hstep
    obtain ⟨c, -, hc⟩ := step_eq_go_iff.1 hstep
    exact hc.knows hk
  · exact fun p v p' rest hk hstep => knows_of_wait hstep hk
  · exact rfl

/-! ### What is missing -/

lemma values_trimmed (h : Trimmed r) {name : String} {v : List Char} (hv : v ∈ r.values name) :
    trimOws v = v := by
  obtain ⟨x, hx, rfl⟩ := List.mem_map.1 hv
  exact h x (List.mem_of_mem_filter hx)

/-- The coding `chunked` is one item. -/
lemma splitOn_chunked {te : List Char} (h : iEquals te "chunked".toList = true) :
    te.splitOn ',' = [te] := by
  have hcomma : ',' ∉ te := by
    intro hmem
    have hlower : ','.toLower ∈ te.map Char.toLower := List.mem_map_of_mem hmem
    rw [of_decide_eq_true h] at hlower
    exact absurd hlower (by decide)
  simpa [List.intercalate] using
    List.splitOn_intercalate ',' (by simpa using hcomma) (List.cons_ne_nil te [])

/-- Every header has an item. -/
lemma length_values_le (r : HttpRequest) :
    (r.values "Transfer-Encoding").length ≤ r.codings.length := by
  rw [HttpRequest.codings]
  generalize r.values "Transfer-Encoding" = vs
  induction vs with
  | nil => simp
  | cons v vs ih =>
    have hpos : 0 < (v.splitOn ',').length := List.length_pos_of_ne_nil (List.splitOn_ne_nil _ _)
    rw [List.flatMap_cons, List.length_append, List.length_map, List.length_cons]
    omega

/-- The end of the body of a complete request is unambiguous exactly if no length is empty and
there is at most one `Transfer-Encoding` header. -/
theorem framed_iff {maxHeaderBytes maxBodyBytes : ℕ} {chunks : List (List Char)}
    (h : r ∈ (machine.feedAll (fresh maxHeaderBytes maxBodyBytes) chunks).outs) :
    r.Framed ↔ (∀ v ∈ r.values "Content-Length", v ≠ []) ∧
      (r.values "Transfer-Encoding").length ≤ 1 := by
  obtain ⟨htrim, maxBody, framing, hframing, hbody⟩ := checked_of_feedAll h
  obtain ⟨hsame, hspec⟩ := resolveFraming_spec hframing
  constructor
  · intro hf
    refine ⟨fun v hv => (hf.digits v hv).1, ?_⟩
    by_cases hte : r.values "Transfer-Encoding" = []
    · rw [hte]
      exact Nat.zero_le _
    · obtain ⟨item, hitem, -⟩ := hf.chunked hte
      have hle := length_values_le r
      rwa [hitem] at hle
  · rintro ⟨hne, hone⟩
    have hequal : ∀ v ∈ r.values "Content-Length", ∀ v' ∈ r.values "Content-Length", v = v' := by
      intro v hv v' hv'
      rw [← values_trimmed htrim hv, ← values_trimmed htrim hv', hsame v hv v' hv']
    cases framing with
    | none =>
      obtain ⟨hcl, hte⟩ := hspec
      exact ⟨.inl hcl, by simp [hcl], hequal, by simp [hcl], fun h => absurd hte h⟩
    | length n =>
      obtain ⟨-, hte, hlen⟩ := hspec
      refine ⟨.inr hte, fun v hv => ⟨hne v hv, ?_⟩, hequal, fun v hv => ?_, fun h => absurd hte h⟩
      · exact values_trimmed htrim hv ▸ (hlen v hv).1
      · rw [hbody n rfl, (hlen v hv).2, values_trimmed htrim hv]
    | chunked =>
      obtain ⟨hcl, te, hhead, hchunked⟩ := hspec
      refine ⟨.inl hcl, by simp [hcl], hequal, by simp [hcl], fun _ => ⟨te, ?_, ?_⟩⟩
      · have hmem := List.mem_of_mem_head? hhead
        have hvalues : r.values "Transfer-Encoding" = [te] := by
          obtain ⟨v, vs, hvs⟩ := List.exists_cons_of_ne_nil (List.ne_nil_of_mem hmem)
          rw [hvs] at hone hhead ⊢
          obtain rfl : vs = [] := List.eq_nil_of_length_eq_zero (by simpa using hone)
          rw [Option.some.inj hhead]
        rw [HttpRequest.codings, hvalues, List.flatMap_singleton, splitOn_chunked]
        · rw [List.map_singleton, values_trimmed htrim hmem]
        · rwa [values_trimmed htrim hmem] at hchunked
      · rwa [values_trimmed htrim (List.mem_of_mem_head? hhead)] at hchunked

/-- An ordinary request with a body. -/
theorem framed_of_length :
    let r : HttpRequest :=
      { method := "POST".toList, target := "/".toList, path := "/".toList,
        headers := [⟨"Content-Length".toList, "5".toList⟩], body := "hello".toList }
    r ∈ (machine.feedAll (fresh 65536 8388608)
      ["POST / HTTP/1.1\r\nContent-Length: 5\r\n\r\nhe".toList, "llo".toList]).outs ∧ r.Framed := by
  intro r
  have hmem : r ∈ (machine.feedAll (fresh 65536 8388608)
      ["POST / HTTP/1.1\r\nContent-Length: 5\r\n\r\nhe".toList, "llo".toList]).outs := by
    decide +kernel
  exact ⟨hmem, (framed_iff hmem).2 (by decide +kernel)⟩

/-- A second coding that nobody looks at, and a length that is not a number. -/
theorem ambiguous_framing_accepted :
    (∃ r ∈ (machine.feedAll (fresh 65536 8388608) [("POST / HTTP/1.1\r\n" ++
        "Transfer-Encoding: chunked\r\nTransfer-Encoding: gzip\r\n\r\n0\r\n\r\n").toList]).outs,
      r.codings = ["chunked".toList, "gzip".toList] ∧ ¬ r.Framed) ∧
    ∃ r ∈ (machine.feedAll (fresh 65536 8388608)
        ["POST / HTTP/1.1\r\nContent-Length: \r\n\r\n".toList]).outs,
      r.values "Content-Length" = [[]] ∧ ¬ r.Framed := by
  constructor
  · refine ⟨{ method := "POST".toList, target := "/".toList, path := "/".toList,
              headers := [⟨"Transfer-Encoding".toList, "chunked".toList⟩,
                ⟨"Transfer-Encoding".toList, "gzip".toList⟩] },
      by decide +kernel, by decide +kernel, fun hf => ?_⟩
    obtain ⟨item, hitem, -⟩ := hf.chunked (by decide +kernel)
    have hlen := congrArg List.length hitem
    rw [List.length_singleton] at hlen
    exact absurd hlen (by decide +kernel)
  · refine ⟨{ method := "POST".toList, target := "/".toList, path := "/".toList,
              headers := [⟨"Content-Length".toList, []⟩] },
      by decide +kernel, by decide +kernel, fun hf => ?_⟩
    exact (hf.digits [] (by decide +kernel)).1 rfl

end HttpRequestParser

end Codicis
