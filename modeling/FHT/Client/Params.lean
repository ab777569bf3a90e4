import FHT.Server.Http

/-!
# Requests of the client and their URLs

`Client::fetch` checks how a URL begins, and the constructor of `params` cuts it into its parts.
Both builds have the same constructor. Where a `substr` starts outside the string it throws
`std::out_of_range`, which is `none` here.

## Main results

- `correctUrl_iff` — the check accepts the two schemes, with anything behind them
- `params_eq` — the parts of an accepted URL, which must have a `/` behind the scheme
- `params_complete_iff` — when an accepted URL is parsed at all
- `params_iff_urlParts` — the parts make up the URL, and no other parts do
-/

namespace FHT.Client

open StdString
open FHT.Server (Verb)

/-- `iClient::httpClient`. -/
structure HttpClient where
  url : Str
  body : Str
  headers : StdMap Str Str
  type : Verb

/-- `iClient::httpClient::httpResponse`. -/
structure HttpResponse where
  status : Int := 0
  err : Str := []
  body : Str := []
  headers : StdMap Str Str := ∅

/-- The check of both overloads of `Client::fetch`. -/
def correctUrl (url : Str) : Bool :=
  ¬ (url = [] ∨ url.length < 6 ∨
    (substr url (some 0) (some 7) ≠ some "http://".toList ∧
      substr url (some 0) (some 8) ≠ some "https://".toList))

structure Params where
  port : Str
  host : Str
  shema : Str
  uri : Str
  request : HttpClient

def params (request : HttpClient) : Option Params := do
  let str := request.url
  let pos := find "://".toList str
  let shema ← substr str (some 0) pos
  let str ← substr str (addPos pos 3) none
  let pos := find ['/'] str
  let uri ← substr str pos none
  let str ← substr str (some 0) pos
  let pos := find [':'] str
  let host ← substr str (some 0) pos
  let port ←
    match pos with
    | none => some (if shema = "http".toList then "80".toList else "443".toList)
    | some _ => substr str (addPos pos 1) none
  return ⟨port, host, shema, uri, request⟩

/-- What stands behind the `://` of a URL. -/
def afterScheme (url : Str) : Str := url.drop (url.idxOf ':' + 3)

/-- What stands between the `://` and the next `/`. -/
def authority (url : Str) : Str := (afterScheme url).take ((afterScheme url).idxOf '/')

/-- The scheme of a URL. -/
def scheme (url : Str) : Str := url.take (url.idxOf ':')

theorem correctUrl_iff (url : Str) :
    correctUrl url ↔ "http://".toList <+: url ∨ "https://".toList <+: url := by
  have hhttp : substr url (some 0) (some 7) = some "http://".toList ↔ "http://".toList <+: url := by
    exact substr_eq_iff "http://".toList url
  have hhttps : substr url (some 0) (some 8) = some "https://".toList ↔
      "https://".toList <+: url := by
    exact substr_eq_iff "https://".toList url
  simp only [correctUrl, ne_eq, hhttp, hhttps, decide_eq_true_eq]
  constructor
  · intro h
    by_contra hno
    exact h (.inr (.inr (not_or.mp hno)))
  · intro h
    have hlen : 6 < url.length := by
      rcases h with h | h
      · exact Nat.lt_of_lt_of_le (by decide) h.length_le
      · exact Nat.lt_of_lt_of_le (by decide) h.length_le
    rintro (rfl | hshort | ⟨hno, hnos⟩)
    · exact absurd hlen (by simp)
    · omega
    · exact h.elim hno hnos

/-- An accepted URL is its scheme, which has no colon, then `://`, then the rest. -/
theorem eq_scheme_append {url : Str} (h : correctUrl url) :
    ':' ∉ scheme url ∧ url = scheme url ++ ("://".toList ++ afterScheme url) := by
  rcases (correctUrl_iff url).mp h with ⟨rest, rfl⟩ | ⟨rest, rfl⟩
  · exact ⟨by simp [scheme], by simp [scheme, afterScheme]⟩
  · exact ⟨by simp [scheme], by simp [scheme, afterScheme]⟩

/-- The first cut of the constructor: the scheme, and what stands behind the `://`. -/
theorem substr_scheme {url : Str} (h : correctUrl url) :
    substr url (some 0) (find "://".toList url) = some (scheme url) ∧
      substr url (addPos (find "://".toList url) 3) none = some (afterScheme url) := by
  obtain ⟨hcolon, hurl⟩ := eq_scheme_append h
  have hfind : find "://".toList url = some (scheme url).length := by
    conv_lhs => rw [hurl]
    exact find_append hcolon
  rw [hfind]
  refine ⟨(substr_eq_iff _ _).mpr ⟨_, hurl.symm⟩, ?_⟩
  have hlen := congrArg List.length hurl
  have hdrop := congrArg (List.drop ((scheme url).length + 3)) hurl
  simp only [List.length_append] at hlen
  rw [addPos, substr_to_end _ (by rw [hlen]; simp), hdrop]
  simp [List.drop_append]

/-- The parts of an accepted URL. -/
theorem params_eq {request : HttpClient} (h : correctUrl request.url) :
    params request =
      if '/' ∈ afterScheme request.url then
        some {
          port := if ':' ∈ authority request.url then
              (authority request.url).drop ((authority request.url).idxOf ':' + 1)
            else if scheme request.url = "http".toList then "80".toList else "443".toList
          host := (authority request.url).take ((authority request.url).idxOf ':')
          shema := scheme request.url
          uri := (afterScheme request.url).drop ((afterScheme request.url).idxOf '/')
          request := request }
      else none := by
  obtain ⟨hshema, hrest⟩ := substr_scheme h
  simp only [params, hshema, hrest, find_singleton, Option.bind_eq_bind, Option.bind_some]
  by_cases hslash : '/' ∈ afterScheme request.url
  · have huri := substr_to_end _ (Nat.le_of_lt (List.idxOf_lt_length_of_mem hslash))
    have hauthority : substr (afterScheme request.url) (some 0)
        (some ((afterScheme request.url).idxOf '/')) = some (authority request.url) :=
      substr_of_le _ (Nat.zero_le _) _
    simp only [if_pos hslash, huri, hauthority, Option.bind_some]
    -- without a port, `substr(0, npos)` takes the whole authority
    by_cases hport : ':' ∈ authority request.url
    · have hlt := List.idxOf_lt_length_of_mem hport
      simp [hport, addPos, substr_of_le _ (Nat.zero_le _), substr_to_end _ hlt]
    · simp [hport, substr]
  · simp only [if_neg hslash, substr, Option.bind_none]

example : (params ⟨"https://h:8080/a:b?c=/".toList, [], ∅, .get⟩).map
    (fun p => (p.shema, p.host, p.port, p.uri)) =
    some ("https".toList, "h".toList, "8080".toList, "/a:b?c=/".toList) := by decide

/-- The constructor throws for an accepted URL exactly if no `/` follows the scheme. -/
theorem exists_params_iff {request : HttpClient} (h : correctUrl request.url) :
    (∃ p, params request = some p) ↔ '/' ∈ afterScheme request.url := by
  rw [params_eq h]
  by_cases hslash : '/' ∈ afterScheme request.url
  · simp [hslash]
  · simp [hslash]

/-- An accepted URL is parsed, with a `uri` that starts with a slash, exactly if a slash follows
its scheme. -/
theorem params_complete_iff {request : HttpClient} (h : correctUrl request.url) :
    (∃ p, params request = some p ∧ (p.uri = [] ∨ ∃ rest, p.uri = '/' :: rest)) ↔
      '/' ∈ afterScheme request.url := by
  rw [← exists_params_iff h]
  constructor
  · rintro ⟨p, hp, _⟩
    exact ⟨p, hp⟩
  · rintro ⟨p, hp⟩
    refine ⟨p, hp, .inr ?_⟩
    have hslash := (exists_params_iff h).mp ⟨p, hp⟩
    rw [params_eq h, if_pos hslash] at hp
    obtain rfl := Option.some.inj hp
    obtain ⟨before, behind, hcut, hno⟩ := List.eq_append_cons_of_mem hslash
    refine ⟨behind, ?_⟩
    change (afterScheme request.url).drop _ = _
    rw [hcut, drop_idxOf_append hno]

theorem params_complete_h :
    ∃ p, params ⟨"http://h/".toList, [], ∅, .get⟩ = some p ∧
      (p.uri = [] ∨ ∃ rest, p.uri = '/' :: rest) :=
  (params_complete_iff (by decide)).mpr (by decide)

/-- A host alone is accepted by the check, and the constructor throws. -/
theorem params_host_only :
    correctUrl "http://host".toList ∧ params ⟨"http://host".toList, [], ∅, .get⟩ = none := by
  decide

/-- The components of a URL. A port is there only if it is written. -/
@[ext]
structure UrlParts where
  shema : Str
  host : Str
  port : Option Str
  uri : Str
  shema_eq : shema = "http".toList ∨ shema = "https".toList
  colon_notMem : ':' ∉ host
  slash_notMem : '/' ∉ host
  slash_notMem_port : ∀ q ∈ port, '/' ∉ q
  uri_eq : ∃ rest, uri = '/' :: rest

namespace UrlParts

/-- The text between the `://` and the `uri`. -/
def authority (u : UrlParts) : Str :=
  match u.port with
  | none => u.host
  | some q => u.host ++ ':' :: q

def url (u : UrlParts) : Str := u.shema ++ ("://".toList ++ (u.authority ++ u.uri))

/-- What the constructor makes of the components. -/
def params (u : UrlParts) (request : HttpClient) : Params where
  port := u.port.getD (if u.shema = "http".toList then "80".toList else "443".toList)
  host := u.host
  shema := u.shema
  uri := u.uri
  request := request

variable (u : UrlParts)

theorem colon_notMem_shema : ':' ∉ u.shema := by
  rcases u.shema_eq with h | h
  · rw [h]
    decide
  · rw [h]
    decide

theorem slash_notMem_authority : '/' ∉ u.authority := by
  rw [authority]
  cases hport : u.port with
  | none => exact u.slash_notMem
  | some q =>
    have hq := u.slash_notMem_port q hport
    simp [u.slash_notMem, hq]

theorem colon_mem_authority_iff : ':' ∈ u.authority ↔ u.port.isSome := by
  rw [authority]
  cases u.port with
  | none => simp [u.colon_notMem]
  | some q => simp

theorem correctUrl_url : correctUrl u.url := by
  rw [correctUrl_iff, url]
  rcases u.shema_eq with h | h
  · rw [h]
    exact .inl ⟨u.authority ++ u.uri, rfl⟩
  · rw [h]
    exact .inr ⟨u.authority ++ u.uri, rfl⟩

theorem scheme_url : scheme u.url = u.shema := take_idxOf_append u.colon_notMem_shema _

theorem afterScheme_url : afterScheme u.url = u.authority ++ u.uri := by
  have hdrop := drop_idxOf_append u.colon_notMem_shema ("//".toList ++ (u.authority ++ u.uri))
  have heq : u.url = u.shema ++ ':' :: ("//".toList ++ (u.authority ++ u.uri)) := rfl
  rw [afterScheme, heq, ← List.drop_drop, hdrop]
  rfl

theorem authority_url : Client.authority u.url = u.authority := by
  obtain ⟨rest, hrest⟩ := u.uri_eq
  rw [Client.authority, afterScheme_url, hrest, take_idxOf_append u.slash_notMem_authority]

/-- A URL that is put together from components has these components. -/
theorem params_url {request : HttpClient} (h : request.url = u.url) :
    Client.params request = some (u.params request) := by
  obtain ⟨rest, hrest⟩ := u.uri_eq
  have hslash : '/' ∈ afterScheme request.url := by
    rw [h, afterScheme_url, hrest]
    simp
  have huri : (afterScheme request.url).drop ((afterScheme request.url).idxOf '/') = u.uri := by
    rw [h, afterScheme_url, hrest, drop_idxOf_append u.slash_notMem_authority]
  rw [params_eq (h ▸ u.correctUrl_url), if_pos hslash, huri, h, authority_url, scheme_url, params]
  congr 2
  · cases hport : u.port with
    | none => simp [u.colon_mem_authority_iff, hport]
    | some q =>
      have hdrop := drop_idxOf_append u.colon_notMem q
      simp [hport, authority, ← List.drop_drop, hdrop]
  · rw [authority]
    cases u.port with
    | none => simp [List.idxOf_eq_length u.colon_notMem]
    | some q => exact take_idxOf_append u.colon_notMem q

/-- A URL has one decomposition. -/
theorem url_injective {u v : UrlParts} (h : u.url = v.url) : u = v := by
  have hauthority : u.authority = v.authority := by
    rw [← u.authority_url, ← v.authority_url, h]
  have hport : u.port.isSome = v.port.isSome := by
    rw [Bool.eq_iff_iff, ← u.colon_mem_authority_iff, ← v.colon_mem_authority_iff, hauthority]
  have hparts : u.host = v.host ∧ u.port = v.port := by
    rw [authority, authority] at hauthority
    cases hu : u.port with
    | none =>
      obtain hv : v.port = none := by simpa [hu] using hport.symm
      rw [hu, hv] at hauthority
      exact ⟨hauthority, hv.symm⟩
    | some q =>
      obtain ⟨r, hv⟩ := Option.isSome_iff_exists.mp (hport.symm.trans (by rw [hu]; rfl))
      simp only [hu, hv] at hauthority
      have hhost := take_idxOf_append u.colon_notMem q
      rw [hauthority, take_idxOf_append v.colon_notMem r] at hhost
      rw [hhost, List.append_cancel_left_eq] at hauthority
      exact ⟨hhost.symm, by rw [hv, (List.cons.inj hauthority).2]⟩
  have huri : u.uri = v.uri := by
    have hafter : u.authority ++ u.uri = v.authority ++ v.uri := by
      rw [← u.afterScheme_url, ← v.afterScheme_url, h]
    rwa [hauthority, List.append_cancel_left_eq] at hafter
  ext1
  · rw [← u.scheme_url, ← v.scheme_url, h]
  · exact hparts.1
  · exact hparts.2
  · exact huri

end UrlParts

theorem scheme_eq {url : Str} (h : correctUrl url) :
    scheme url = "http".toList ∨ scheme url = "https".toList := by
  rcases (correctUrl_iff url).mp h with ⟨rest, rfl⟩ | ⟨rest, rfl⟩
  · exact .inl (by simp [scheme])
  · exact .inr (by simp [scheme])

/-- An accepted URL with a slash behind its scheme is put together from components. -/
theorem exists_urlParts {url : Str} (h : correctUrl url) (hslash : '/' ∈ afterScheme url) :
    ∃ u : UrlParts, url = u.url := by
  obtain ⟨auth, rest, hcut, hauth⟩ := List.eq_append_cons_of_mem hslash
  have hurl := (eq_scheme_append h).2
  rw [hcut] at hurl
  by_cases hcolon : ':' ∈ auth
  · obtain ⟨host, q, rfl, hhost⟩ := List.eq_append_cons_of_mem hcolon
    have hno : '/' ∉ host ∧ '/' ∉ q := by simpa using hauth
    exact ⟨⟨scheme url, host, some q, '/' :: rest, scheme_eq h, hhost, hno.1,
      by simpa using hno.2, rest, rfl⟩, hurl⟩
  · exact ⟨⟨scheme url, auth, none, '/' :: rest, scheme_eq h, hcolon, hauth, by simp, rest, rfl⟩,
      hurl⟩

/-- What the constructor returns for an accepted URL are the components that make up the URL, and
only these do. A URL put together from components is accepted and has them. -/
theorem params_iff_urlParts (request : HttpClient) :
    (∀ p, correctUrl request.url → params request = some p →
      ∃ u : UrlParts, request.url = u.url ∧ p = u.params request ∧
        (u.port.isSome ↔ ':' ∈ authority request.url) ∧
        ∀ v : UrlParts, request.url = v.url → v = u) ∧
    ∀ u : UrlParts, request.url = u.url →
      correctUrl request.url ∧ params request = some (u.params request) := by
  constructor
  · intro p h hp
    obtain ⟨u, hu⟩ := exists_urlParts h ((exists_params_iff h).mp ⟨p, hp⟩)
    refine ⟨u, hu, ?_, ?_, ?_⟩
    · exact Option.some.inj (hp.symm.trans (u.params_url hu))
    · rw [hu, u.authority_url, u.colon_mem_authority_iff]
    · intro v hv
      exact UrlParts.url_injective (hv.symm.trans hu)
  · intro u hu
    exact ⟨hu ▸ u.correctUrl_url, u.params_url hu⟩

theorem params_iff_urlParts_example :
    ∃ u : UrlParts, "https://h:8080/a:b?c=/".toList = u.url ∧ u.port = some "8080".toList := by
  obtain ⟨u, hu, hp, _⟩ := (params_iff_urlParts ⟨"https://h:8080/a:b?c=/".toList, [], ∅, .get⟩).1
    _ (by decide) rfl
  refine ⟨u, hu, ?_⟩
  have hport : u.port.getD (if u.shema = "http".toList then "80".toList else "443".toList) =
      "8080".toList := (congrArg Params.port hp).symm
  cases hq : u.port with
  | some q => rw [← hport, hq, Option.getD_some]
  | none =>
    rw [hq, Option.getD_none] at hport
    split at hport
    · exact absurd hport (by decide)
    · exact absurd hport (by decide)

end FHT.Client
