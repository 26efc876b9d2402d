import ContractAudit.Service.Analyze

/-!
The analyzer service over HTTP.

There are two routes: one tells that the server is up, the other takes requests to analyse. Every
response says that any web page may use the service.
-/

namespace ContractAudit.Service

open Calendar

/-- A request. -/
structure HttpRequest where
  method : Text
  path : Text
  contentType : Text
  body : Text
deriving DecidableEq, Repr

/-- A response. -/
structure HttpResponse where
  status : Nat
  headers : List (Text × Text)
  body : Text
deriving DecidableEq, Repr

/-- The headers that let any web page use the service. -/
def openHeaders : List (Text × Text) := [
  ("Access-Control-Allow-Origin", "*"),
  ("Access-Control-Allow-Methods", "POST, OPTIONS"),
  ("Access-Control-Allow-Headers", "Content-Type, Connect-Protocol-Version, Connect-Timeout-Ms"),
  ("Access-Control-Expose-Headers", "Content-Type, Connect-Protocol-Version")]

/-- A response with the usual headers. -/
def respond (status : Nat) (body : Text) : HttpResponse := ⟨status, openHeaders, body⟩

/-- The status of a kind of refusal. -/
def Code.status : Code → Nat
  | .invalidArgument => 400
  | .permissionDenied => 403
  | .internal => 500

/-- How the body of a request is written. -/
inductive Encoding where
  /-- JSON as this service reads it. -/
  | json
  /-- Encodings of messages that requests do not have. -/
  | message
deriving DecidableEq, Repr

/-- A media type in lower case, with its parameters behind semicolons and one space. -/
def canonicalType (t : Text) : Text :=
  Text.joinWith "; " (((t.splitOn ";").map fun part => part.trim.lower).filter (!·.isEmpty))

/-- The encoding that a content type names. -/
def Encoding.ofType? (contentType : Text) : Option Encoding :=
  let t := canonicalType contentType
  if t == "application/json" then some .json
  else if t == "application/proto" || t == "application/json; charset=utf-8" then some .message
  else none

/-- The route that tells that the server is up. -/
def healthPath : Text := "/healthz"

/-- The route for requests to analyse. -/
def analyzePath : Text := "/verazt.v1.AnalyzerService/Analyze"

/-- The request in a body. -/
def readBody (e : Encoding) (body : Text) : Except Refusal AuditRequest :=
  match e with
  | .json => (AuditRequest.read body).mapError .malformed
  | .message => .error (.malformed "*api.AnalyzeRequest doesn't implement proto.Message")

/-- Answers a request to analyse. -/
def analyzeOver (fs : FileSystem) (now : Instant) (root : Text) (r : HttpRequest) : HttpResponse :=
  if r.method != "POST" then respond 405 []
  else
    match Encoding.ofType? r.contentType with
    | none => respond 415 []
    | some e =>
      match readBody e r.body >>= analyze fs now root with
      | .ok x => respond 200 (answerJson x).compact
      | .error refusal => respond refusal.code.status (refusalJson refusal).compact

/-- The path that a route is looked up by: rooted and clean, with a slash at its end if there was
one. -/
def routePath (t : Text) : Text :=
  let rooted : Text := if Path.isRooted t then t else "/" ++ t
  let clean := Path.clean rooted
  if Text.endsWith rooted "/" && clean != "/" then clean ++ "/" else clean

/-- The text with the characters that have a meaning in a web page escaped. -/
def escapeHtml (t : Text) : Text :=
  t.flatMap fun c =>
    if c == 38 then ("&amp;" : Text)
    else if c == 60 then ("&lt;" : Text)
    else if c == 62 then ("&gt;" : Text)
    else if c == 34 then ("&#34;" : Text)
    else if c == 39 then ("&#39;" : Text)
    else [c]

/-- Sends a request on to another path. -/
def redirect (method path : Text) : HttpResponse :=
  respond 301 (if method == "GET" then
      "<a href=\"" ++ escapeHtml path ++ "\">Moved Permanently</a>.\n\n"
    else ([] : Text))

/-- Answers a request. -/
def serve (fs : FileSystem) (now : Instant) (root : Text) (r : HttpRequest) : HttpResponse :=
  if r.method == "OPTIONS" then respond 200 []
  else
    let (path, query) : Text × Text := match Text.cut? r.path "?" with
      | some (path, query) => (path, "?" ++ query)
      | none => (r.path, [])
    if routePath path != path then redirect r.method (routePath path ++ query)
    else if path == analyzePath then analyzeOver fs now root r
    else if path == healthPath then respond 200 "ok\n"
    else respond 404 "404 page not found\n"

end ContractAudit.Service
