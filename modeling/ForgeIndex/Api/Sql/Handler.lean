import ForgeIndex.Api.Sql.Executor
import ForgeIndex.Api.Sql.RateLimiter

/-!
# The SQL endpoint

`forge-index-api/src/handlers/sql.rs`, and the way in which `ApiServer::run` of `server.rs` serves
it.  Requests come to the rate limiter one after the other; each has a connection of its own.
-/

namespace ForgeIndex

open Text

namespace Sql

/-- `SqlState`, without the pool and the limiter. -/
structure SqlState where
  pgSchema : List Char
  apiKey : Option (List Char)
  prodMode : Bool

/-- A request: its address if the server passes it on, the `Authorization` header if there is one
that is text, the body, and the clock when it comes to the limiter. -/
structure HttpRequest where
  connectInfo : Option IpAddr
  authorization : Option (List Char)
  query : List Char
  timeoutMs : Option UInt64
  opened : ℚ
  now : ℚ

inductive StatusCode where
  | ok | badRequest | unauthorized | requestTimeout | tooManyRequests | internalServerError
  deriving DecidableEq

/-- The body of a response: a result, or a code and a message. -/
inductive Response where
  | ok (result : SqlResult)
  | error (status : StatusCode) (code message : String)

def stripPrefix (pat s : List Char) : Option (List Char) :=
  if pat.isPrefixOf s then some (s.drop pat.length) else none

/-- The request passes step 1. -/
def authorized (state : SqlState) (r : HttpRequest) : Bool :=
  if state.prodMode then
    match state.apiKey with
    | some expectedKey => r.authorization.bind (stripPrefix "Bearer ".toList) = some expectedKey
    | none => true
  else true

def localhost : IpAddr := .v4 0x7f000001

/-- The call that the request makes of the limiter. -/
def HttpRequest.call (r : HttpRequest) : Call := ⟨r.connectInfo.getD localhost, r.opened, r.now⟩

/-- `Display` of the errors of the validator. -/
def SqlError.display : SqlError → String
  | .invalidStatement msg => msg
  | .forbiddenKeyword kw => "Forbidden keyword: " ++ kw
  | .tooLong len max => "Query too long: " ++ toString len ++ " chars (max " ++ toString max ++ ")"

def SqlError.code : SqlError → String
  | .invalidStatement _ => "INVALID_SQL"
  | .forbiddenKeyword _ => "FORBIDDEN_KEYWORD"
  | .tooLong _ _ => "QUERY_TOO_LONG"

/-- Step 4. -/
def respond : Except ExecError SqlResult → Response
  | .ok result => .ok result
  | .error .timeout => .error .requestTimeout "TIMEOUT" "Query execution timed out"
  | .error (.database e) =>
    .error .internalServerError "DATABASE_ERROR" ("Database error: " ++ e)

/-- What comes of a request; there is no response if the handler panics. -/
structure Handled where
  response : Option Response
  statements : List Statement
  limiter : SqlRateLimiter

section Handler

variable (tables : CaseTables) (state : SqlState)

def sqlHandler (limiter : SqlRateLimiter) (r : HttpRequest) (db : Replies) : Handled :=
  if !authorized state r then
    ⟨some (.error .unauthorized "UNAUTHORIZED" "Invalid or missing Authorization header"), [],
      limiter⟩
  else
    let acquired := limiter.tryAcquire r.call
    if !acquired.1 then
      ⟨some (.error .tooManyRequests "RATE_LIMITED"
        "Too many requests. Max 10 requests per second."), [], acquired.2⟩
    else
      match validateSqlBytes tables r.query state.pgSchema with
      | none => ⟨none, [], acquired.2⟩
      | some (.error e) => ⟨some (.error .badRequest (SqlError.code e) (SqlError.display e)), [],
          acquired.2⟩
      | some (.ok validated) =>
        let executed := executeSql db validated r.timeoutMs
        ⟨some (respond executed.1), executed.2, acquired.2⟩

/-- A request with what came of it. -/
structure Entry where
  request : HttpRequest
  response : Option Response
  statements : List Statement

/-- Requests with the replies that they meet, in the order in which they come to the limiter. -/
def serve (limiter : SqlRateLimiter) : List (HttpRequest × Replies) → List Entry × SqlRateLimiter
  | [] => ([], limiter)
  | x :: xs =>
    let h := sqlHandler tables state limiter x.1 x.2
    let rest := serve h.limiter xs
    (⟨x.1, h.response, h.statements⟩ :: rest.1, rest.2)

end Handler

/-- `axum::serve` with a plain router: no handler is told where a request comes from. -/
def withoutConnectInfo (x : HttpRequest × Replies) : HttpRequest × Replies :=
  ({ x.1 with connectInfo := none }, x.2)

section Request

variable {tables : CaseTables} {state : SqlState} {limiter : SqlRateLimiter} {r : HttpRequest}
  {db : Replies}

theorem limiter_of_authorized (h : authorized state r = true) :
    (sqlHandler tables state limiter r db).limiter = (limiter.tryAcquire r.call).2 := by
  unfold sqlHandler
  rw [h]
  dsimp only
  rw [Bool.not_true, if_neg Bool.false_ne_true]
  split_ifs
  · rfl
  · split <;> rfl

theorem handled_of_unauthorized (h : authorized state r = false) :
    sqlHandler tables state limiter r db =
      ⟨some (.error .unauthorized "UNAUTHORIZED" "Invalid or missing Authorization header"), [],
        limiter⟩ := by
  unfold sqlHandler
  rw [h]
  rfl

/-- Everything that has to be so before the database hears of a request, which found this limiter. -/
structure Admitted (tables : CaseTables) (state : SqlState) (limiter : SqlRateLimiter)
    (r : HttpRequest) (statements : List Statement) : Prop where
  authorized : authorized state r = true
  granted : (limiter.tryAcquire r.call).1 = true
  validated : ∃ v, validateSqlBytes tables r.query state.pgSchema = some (.ok v) ∧
    Transaction r.timeoutMs v.sanitised statements

theorem admitted_of_statements (h : (sqlHandler tables state limiter r db).statements ≠ []) :
    Admitted tables state limiter r (sqlHandler tables state limiter r db).statements := by
  cases hauth : authorized state r with
  | false =>
    rw [handled_of_unauthorized hauth] at h
    exact absurd rfl h
  | true =>
    unfold sqlHandler at h ⊢
    rw [hauth] at h ⊢
    rw [Bool.not_true, if_neg Bool.false_ne_true] at h ⊢
    dsimp only at h ⊢
    cases hacquired : (limiter.tryAcquire r.call).1 with
    | false =>
      rw [hacquired] at h
      exact absurd rfl h
    | true =>
      rw [hacquired, Bool.not_true, if_neg Bool.false_ne_true] at h
      rw [Bool.not_true, if_neg Bool.false_ne_true]
      cases hvalidated : validateSqlBytes tables r.query state.pgSchema with
      | none =>
        rw [hvalidated] at h
        exact absurd rfl h
      | some result =>
        cases result with
        | error e =>
          rw [hvalidated] at h
          exact absurd rfl h
        | ok v => exact ⟨hauth, hacquired, v, hvalidated, executeSql_transaction db v r.timeoutMs⟩

end Request

section Runs

variable {tables : CaseTables} {state : SqlState} {limiter : SqlRateLimiter}

theorem serve_of_authorized {x : HttpRequest × Replies} {xs : List (HttpRequest × Replies)}
    (h : authorized state x.1 = true) :
    (serve tables state limiter (x :: xs)).1 =
      ⟨x.1, (sqlHandler tables state limiter x.1 x.2).response,
        (sqlHandler tables state limiter x.1 x.2).statements⟩ ::
        (serve tables state (limiter.tryAcquire x.1.call).2 xs).1 := by
  rw [serve, limiter_of_authorized h]

theorem serve_of_unauthorized {x : HttpRequest × Replies} {xs : List (HttpRequest × Replies)}
    (h : authorized state x.1 = false) :
    (serve tables state limiter (x :: xs)).1 =
      ⟨x.1, some (.error .unauthorized "UNAUTHORIZED" "Invalid or missing Authorization header"),
        []⟩ :: (serve tables state limiter xs).1 := by
  rw [serve, handled_of_unauthorized h]

/-- The calls that the requests make of the limiter. -/
def callsOf (state : SqlState) (xs : List (HttpRequest × Replies)) : List Call :=
  (xs.filter fun x => authorized state x.1).map fun x => x.1.call

/-- The statements that were sent for an entry were admitted, with the limiter as the requests before
have left it. -/
theorem admitted_of_getElem {xs : List (HttpRequest × Replies)} {i : ℕ} {e : Entry}
    (he : (serve tables state limiter xs).1[i]? = some e) (hsent : e.statements ≠ []) :
    Admitted tables state (serve tables state limiter (xs.take i)).2 e.request e.statements := by
  induction xs generalizing limiter i with
  | nil => cases he
  | cons x xs ih =>
    cases i with
    | zero =>
      obtain rfl := Option.some.inj he
      exact admitted_of_statements hsent
    | succ i => exact ih he

/-- The entries of an address that came to the limiter in a window and were sent to the database. -/
def admittedIn (ip : IpAddr) (t₁ t₂ : ℚ) (entries : List Entry) : List Entry :=
  entries.filter fun e => !e.statements.isEmpty &&
    (decide (e.request.call.ip = ip) && (decide (t₁ ≤ e.request.now) &&
      decide (e.request.now ≤ t₂)))

theorem length_admittedIn_le (ip : IpAddr) (t₁ t₂ : ℚ) (xs : List (HttpRequest × Replies)) :
    (admittedIn ip t₁ t₂ (serve tables state limiter xs).1).length ≤
      (SqlRateLimiter.acceptedIn ip t₁ t₂ (limiter.run (callsOf state xs)).1).length := by
  induction xs generalizing limiter with
  | nil => exact le_refl 0
  | cons x xs ih =>
    cases hauth : authorized state x.1 with
    | false =>
      have hcalls : callsOf state (x :: xs) = callsOf state xs := by
        unfold callsOf
        rw [List.filter_cons_of_neg (by simp [hauth])]
      rw [serve_of_unauthorized hauth, hcalls]
      exact ih
    | true =>
      have hcalls : callsOf state (x :: xs) = x.1.call :: callsOf state xs := by
        unfold callsOf
        rw [List.filter_cons_of_pos (by simp [hauth]), List.map_cons]
      rw [serve_of_authorized hauth, hcalls]
      have hrest := @ih (limiter.tryAcquire x.1.call).2
      unfold admittedIn SqlRateLimiter.acceptedIn at hrest ⊢
      rw [SqlRateLimiter.run]
      dsimp only
      by_cases hsent : (sqlHandler tables state limiter x.1 x.2).statements = []
      · -- nothing is sent for this request
        rw [List.filter_cons_of_neg (by simp [hsent])]
        exact hrest.trans ((List.sublist_cons_self _ _).filter _).length_le
      · have hacquired := (admitted_of_statements hsent).granted
        have hsome : (sqlHandler tables state limiter x.1 x.2).statements.isEmpty = false := by
          rwa [List.isEmpty_eq_false_iff]
        by_cases hin : (decide (x.1.call.ip = ip) && (decide (t₁ ≤ x.1.now) &&
            decide (x.1.now ≤ t₂))) = true
        · rw [List.filter_cons_of_pos (by rw [hsome]; exact hin),
            List.filter_cons_of_pos (by rw [hacquired]; exact hin)]
          exact Nat.succ_le_succ hrest
        · rw [List.filter_cons_of_neg (by rw [hsome]; exact hin),
            List.filter_cons_of_neg (by rw [hacquired]; exact hin)]
          exact hrest

theorem serve_filter (xs : List (HttpRequest × Replies)) :
    (serve tables state limiter xs).1.filter (fun e => authorized state e.request) =
      (serve tables state limiter (xs.filter fun x => authorized state x.1)).1 := by
  induction xs generalizing limiter with
  | nil => rfl
  | cons x xs ih =>
    cases hauth : authorized state x.1 with
    | false =>
      rw [serve_of_unauthorized hauth, List.filter_cons_of_neg (by simp [hauth]),
        List.filter_cons_of_neg (by simp [hauth]), ih]
    | true =>
      rw [serve_of_authorized hauth, List.filter_cons_of_pos (by simpa using hauth),
        List.filter_cons_of_pos (by simpa using hauth), serve_of_authorized hauth, ih]

theorem admittedIn_le_rate (ip : IpAddr) (m : UInt32) {xs : List (HttpRequest × Replies)}
    (h : Chronological (callsOf state xs)) {t₁ t₂ : ℚ} (hwindow : t₁ ≤ t₂) :
    ((admittedIn ip t₁ t₂ (serve tables state (SqlRateLimiter.new m) xs).1).length : ℚ) ≤
      m.toNat + m.toNat * (t₂ - t₁) :=
  (Nat.cast_le.mpr (length_admittedIn_le ip t₁ t₂ xs)).trans
    (SqlRateLimiter.length_acceptedIn_le m h ip hwindow)

/-- A request with the key, and one without it from another address. -/
def twoRequests : List (HttpRequest × Replies) :=
  let db : Replies := ⟨none, none, .ok ⟨[], [], fun _ h => absurd h List.not_mem_nil⟩, 1⟩
  [(⟨some (.v4 1), some "Bearer k".toList, "SELECT 1".toList, none, 0, 0⟩, db),
    (⟨some (.v4 2), none, "SELECT 1".toList, some 10, 1, 1⟩, db)]

example : (serve CaseTables.ascii ⟨"s".toList, some "k".toList, true⟩ (SqlRateLimiter.new 1)
    twoRequests).1.map Entry.statements =
      [[.begin, .setLocal "SET LOCAL statement_timeout = '5000ms'",
        .query "SELECT 1 LIMIT 1000".toList, .rollback], []] := by decide +kernel

theorem request_of_mem_serve {xs : List (HttpRequest × Replies)} {e : Entry}
    (he : e ∈ (serve tables state limiter xs).1) : ∃ x ∈ xs, e.request = x.1 := by
  induction xs generalizing limiter with
  | nil => exact absurd he List.not_mem_nil
  | cons x xs ih =>
    rw [serve] at he
    rcases List.mem_cons.mp he with hfirst | hrest
    · exact ⟨x, List.mem_cons_self, by rw [hfirst]⟩
    · obtain ⟨y, hy, hey⟩ := ih hrest
      exact ⟨y, List.mem_cons_of_mem x hy, hey⟩

end Runs

end Sql

end ForgeIndex
