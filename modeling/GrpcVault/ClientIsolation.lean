import GrpcVault.RateLimiter
import GrpcVault.Lib.GoText

/-!
# Which requests share a limiter

`HTTPMiddleware` limits requests by the text that `getClientID` makes of their headers or their
address. Two requests get the same text without the same credentials only if both carry a token
and the tokens agree in their first 32 bytes (`SharesToken`); requests from one address get
different texts if they come from different ports (`PortsDiffer`). A client whose token nobody
shares is answered as if it were alone.
-/

namespace GrpcVault.RateLimit

open EventSystem TokenBucket GoText

def ascii (text : String) : Bytes := text.toList.map fun c => UInt8.ofNat c.toNat

/-- The first value of each of the two headers, empty if there is none. -/
structure Request where
  apiKey : Bytes
  authorization : Bytes
  remoteAddr : Bytes
  deriving DecidableEq

def getClientID (r : Request) : Bytes :=
  if r.apiKey ≠ [] then ascii "apikey:" ++ r.apiKey
  else if r.authorization ≠ [] then
    ascii "token:" ++ r.authorization.take (min r.authorization.length 32)
  else ascii "ip:" ++ r.remoteAddr

/-- The address without the port, which follows the last colon. -/
def Request.ip (r : Request) : Bytes :=
  match r.remoteAddr.reverse.dropWhile (· ≠ 58) with
  | [] => r.remoteAddr
  | _ :: host => host.reverse

inductive HttpEvent where
  | tick (d : ℕ)
  | serve (r : Request) (e : CallStep)
  | sweep (clientID : Bytes) (e : SweepStep)

def HttpEvent.event : HttpEvent → Event Bytes
  | .tick d => .tick d
  | .serve r e => .call (getClientID r) e
  | .sweep clientID e => .sweep clientID e

inductive HttpOutput where
  | running (o : Output)
  | error (text : String) (code : ℕ)
  | next
  deriving DecidableEq

def respond : Output → HttpOutput
  | .allowed false => .error "Too Many Requests" 429
  | .allowed true => .next
  | o => .running o

variable {L : Type}

def httpMiddleware (lib : Limiter L) (rl : RateLimiter) : Step (State Bytes L) HttpEvent HttpOutput
  | s, e => (step lib rl s e.event).map fun (s', o) => (s', respond o)

abbrev HttpTrace := List (HttpEvent × HttpOutput)

def SameClient (r r' : Request) : Prop :=
  (r.apiKey ≠ [] ∧ r.apiKey = r'.apiKey) ∨
    (r.apiKey = [] ∧ r'.apiKey = [] ∧
      ((r.authorization ≠ [] ∧ r.authorization = r'.authorization) ∨
        (r.authorization = [] ∧ r'.authorization = [] ∧ r.ip = r'.ip)))

structure SharesToken (r r' : Request) : Prop where
  apiKey : r.apiKey = [] ∧ r'.apiKey = []
  present : r.authorization ≠ [] ∧ r'.authorization ≠ []
  take : r.authorization.take 32 = r'.authorization.take 32
  ne : r.authorization ≠ r'.authorization

/-- Requests without credentials from one address but from different ports. -/
structure PortsDiffer (r r' : Request) : Prop where
  apiKey : r.apiKey = [] ∧ r'.apiKey = []
  absent : r.authorization = [] ∧ r'.authorization = []
  ip : r.ip = r'.ip
  ne : r.remoteAddr ≠ r'.remoteAddr

variable {r r' r₀ : Request}

theorem take_min_length (bs : Bytes) : bs.take (min bs.length 32) = bs.take 32 := by
  rw [min_comm, ← List.take_take, List.take_length]

/-- The kind of an identifier shows in its first byte. -/
theorem getClientID_eq_iff : getClientID r = getClientID r' ↔
    (r.apiKey ≠ [] ∧ r.apiKey = r'.apiKey) ∨
    (r.apiKey = [] ∧ r'.apiKey = [] ∧
      ((r.authorization ≠ [] ∧ r'.authorization ≠ [] ∧
          r.authorization.take 32 = r'.authorization.take 32) ∨
        (r.authorization = [] ∧ r'.authorization = [] ∧ r.remoteAddr = r'.remoteAddr))) := by
  have hkey : ascii "apikey:" = 97 :: ascii "pikey:" := by decide
  have htoken : ascii "token:" = 116 :: ascii "oken:" := by decide
  have hip : ascii "ip:" = 105 :: ascii "p:" := by decide
  unfold getClientID
  simp only [take_min_length]
  by_cases h₁ : r.apiKey = []
  · by_cases h₂ : r'.apiKey = []
    · by_cases h₃ : r.authorization = []
      · by_cases h₄ : r'.authorization = []
        · simp [h₁, h₂, h₃, h₄]
        · simp [h₁, h₂, h₃, h₄, htoken, hip]
      · by_cases h₄ : r'.authorization = []
        · simp [h₁, h₂, h₃, h₄, htoken, hip]
        · simp [h₁, h₂, h₃, h₄]
    · by_cases h₃ : r.authorization = []
      · simp [h₁, h₂, h₃, hkey, hip]
      · simp [h₁, h₂, h₃, hkey, htoken]
  · by_cases h₂ : r'.apiKey = []
    · by_cases h₄ : r'.authorization = []
      · simp [h₁, h₂, h₄, hkey, hip]
      · simp [h₁, h₂, h₄, hkey, htoken]
    · simp [h₁, h₂]

theorem SharesToken.getClientID_eq (h : SharesToken r r') : getClientID r = getClientID r' :=
  getClientID_eq_iff.mpr (.inr ⟨h.apiKey.1, h.apiKey.2, .inl ⟨h.present.1, h.present.2, h.take⟩⟩)

theorem PortsDiffer.getClientID_ne (h : PortsDiffer r r') : getClientID r ≠ getClientID r' := by
  rw [Ne, getClientID_eq_iff]
  simp [h.apiKey.1, h.absent.1, h.ne]

theorem PortsDiffer.sameClient (h : PortsDiffer r r') : SameClient r r' :=
  .inr ⟨h.apiKey.1, h.apiKey.2, .inr ⟨h.absent.1, h.absent.2, h.ip⟩⟩

theorem SharesToken.not_sameClient (h : SharesToken r r') : ¬ SameClient r r' := by
  simp [SameClient, h.apiKey.1, h.present.1, h.ne]

theorem sameClient_or_sharesToken (h : getClientID r = getClientID r') :
    SameClient r r' ∨ SharesToken r r' := by
  rcases getClientID_eq_iff.mp h with hkey | ⟨hr, hr', ⟨ha, ha', htake⟩ | ⟨ha, ha', haddr⟩⟩
  · exact .inl (.inl hkey)
  · by_cases heq : r.authorization = r'.authorization
    · exact .inl (.inr ⟨hr, hr', .inl ⟨ha, heq⟩⟩)
    · exact .inr ⟨⟨hr, hr'⟩, ⟨ha, ha'⟩, htake, heq⟩
  · have hip : r.ip = r'.ip := by rw [Request.ip, Request.ip, haddr]
    exact .inl (.inr ⟨hr, hr', .inr ⟨ha, ha', hip⟩⟩)

theorem getClientID_eq_or_portsDiffer (h : SameClient r r') :
    getClientID r = getClientID r' ∨ PortsDiffer r r' := by
  rcases h with hkey | ⟨hr, hr', ⟨ha, heq⟩ | ⟨ha, ha', hip⟩⟩
  · exact .inl (getClientID_eq_iff.mpr (.inl hkey))
  · exact .inl (getClientID_eq_iff.mpr (.inr ⟨hr, hr', .inl ⟨ha, heq ▸ ha, by rw [heq]⟩⟩))
  · by_cases haddr : r.remoteAddr = r'.remoteAddr
    · exact .inl (getClientID_eq_iff.mpr (.inr ⟨hr, hr', .inr ⟨ha, ha', haddr⟩⟩))
    · exact .inr ⟨⟨hr, hr'⟩, ⟨ha, ha'⟩, hip, haddr⟩

theorem getClientID_exact_iff : (getClientID r = getClientID r' ↔ SameClient r r') ↔
    ¬ SharesToken r r' ∧ ¬ PortsDiffer r r' := by
  constructor
  · intro h
    constructor
    · exact fun hshares => hshares.not_sameClient (h.mp hshares.getClientID_eq)
    · exact fun hports => hports.getClientID_ne (h.mpr hports.sameClient)
  · rintro ⟨hshares, hports⟩
    constructor
    · exact fun hid => (sameClient_or_sharesToken hid).resolve_right hshares
    · exact fun hsame => (getClientID_eq_or_portsDiffer hsame).resolve_right hports

def ClientIDs (r₀ : Request) (clientID : Bytes) : Prop :=
  ∃ r, SameClient r r₀ ∧ getClientID r = clientID

theorem SameClient.trans {r'' : Request} (h : SameClient r r') (h' : SameClient r' r'') :
    SameClient r r'' := by
  rcases h with ⟨hr, heq⟩ | ⟨hr, hr', h⟩
  · rcases h' with ⟨-, heq'⟩ | ⟨hnone, -⟩
    · exact .inl ⟨hr, heq.trans heq'⟩
    · exact absurd (heq.trans hnone) hr
  · rcases h' with ⟨hsome, -⟩ | ⟨-, hr'', h'⟩
    · exact absurd hr' hsome
    · refine .inr ⟨hr, hr'', ?_⟩
      rcases h with ⟨ha, heq⟩ | ⟨ha, ha', hip⟩
      · rcases h' with ⟨-, heq'⟩ | ⟨hnone, -⟩
        · exact .inl ⟨ha, heq.trans heq'⟩
        · exact absurd (heq.trans hnone) ha
      · rcases h' with ⟨hsome, -⟩ | ⟨-, ha'', hip'⟩
        · exact absurd ha' hsome
        · exact .inr ⟨ha, ha'', hip.trans hip'⟩

theorem SharesToken.sameClient {r'' : Request} (h : SharesToken r r') (h' : SameClient r' r'') :
    SharesToken r r'' := by
  obtain ⟨hr, hr'⟩ := h.apiKey
  obtain ⟨ha, ha'⟩ := h.present
  rcases h' with ⟨hsome, -⟩ | ⟨-, hr'', ⟨-, heq⟩ | ⟨hnone, -⟩⟩
  · exact absurd hr' hsome
  · exact ⟨⟨hr, hr''⟩, ⟨ha, heq ▸ ha'⟩, heq ▸ h.take, heq ▸ h.ne⟩
  · exact absurd hnone ha'

theorem clientIDs_iff (h : ¬ SharesToken r r₀) :
    ClientIDs r₀ (getClientID r) ↔ SameClient r r₀ := by
  constructor
  · rintro ⟨r₁, hsame, hid⟩
    rcases sameClient_or_sharesToken hid.symm with hclient | hshares
    · exact hclient.trans hsame
    · exact absurd (hshares.sameClient hsame) h
  · exact fun hsame => ⟨r, hsame, rfl⟩

/-- What concerns the client: its own requests, the cleanup of its entries, the clock. -/
def Concerns (r₀ : Request) : HttpEvent → Prop
  | .tick _ => True
  | .serve r _ => SameClient r r₀
  | .sweep clientID _ => ClientIDs r₀ clientID

open scoped Classical in
noncomputable def clientPart (r₀ : Request) (tr : HttpTrace) : HttpTrace :=
  tr.filter fun x => Concerns r₀ x.1

/-- No other request comes with a token that shares its first bytes with the client's. -/
def Unshared (r₀ : Request) (tr : HttpTrace) : Prop :=
  ∀ r e o, (HttpEvent.serve r e, o) ∈ tr → ¬ SharesToken r r₀

variable {lib : Limiter L} {rl : RateLimiter} {now : ℤ} {s s' t : State Bytes L} {tr : HttpTrace}

/-- The states agree in the time and in what they hold for the identifiers of the client. -/
def AgreeFor (r₀ : Request) (s t : State Bytes L) : Prop :=
  s.now = t.now ∧ ∀ clientID, ClientIDs r₀ clientID → s.slots clientID = t.slots clientID

theorem AgreeFor.put_other {clientID : Bytes} {slot : Slot L} (h : AgreeFor r₀ s t)
    (hid : ¬ ClientIDs r₀ clientID) : AgreeFor r₀ (s.put clientID slot) t := by
  refine ⟨h.1, fun id hclient => ?_⟩
  have hne : id ≠ clientID := fun heq => hid (heq ▸ hclient)
  rw [State.put_slots_of_ne hne]
  exact h.2 id hclient

theorem AgreeFor.put {clientID : Bytes} {slot : Slot L} (h : AgreeFor r₀ s t) :
    AgreeFor r₀ (s.put clientID slot) (t.put clientID slot) := by
  refine ⟨h.1, fun id hclient => ?_⟩
  by_cases hid : id = clientID
  · subst hid
    simp
  · rw [State.put_slots_of_ne hid, State.put_slots_of_ne hid]
    exact h.2 id hclient

def Visible (r₀ : Request) : Event Bytes → Prop
  | .tick _ => True
  | .call clientID _ => ClientIDs r₀ clientID
  | .sweep clientID _ => ClientIDs r₀ clientID

theorem AgreeFor.hidden {e : Event Bytes} {o : Output} (h : AgreeFor r₀ s t)
    (he : ¬ Visible r₀ e) (hstep : step lib rl s e = some (s', o)) : AgreeFor r₀ s' t := by
  cases e with
  | tick d => exact absurd trivial he
  | call clientID e =>
      obtain ⟨slot, -, rfl⟩ := step_call hstep
      exact h.put_other he
  | sweep clientID e =>
      obtain ⟨slot, -, rfl⟩ := step_sweep hstep
      exact h.put_other he

theorem AgreeFor.visible {e : Event Bytes} {o : Output} (h : AgreeFor r₀ s t)
    (he : Visible r₀ e) (hstep : step lib rl s e = some (s', o)) :
    ∃ t', step lib rl t e = some (t', o) ∧ AgreeFor r₀ s' t' := by
  cases e with
  | tick d =>
      cases hstep
      exact ⟨_, rfl, congrArg (· + (d : ℤ)) h.1, h.2⟩
  | call clientID e =>
      obtain ⟨slot, hslot, rfl⟩ := step_call hstep
      refine ⟨t.put clientID slot, ?_, h.put⟩
      rw [h.1, h.2 clientID he] at hslot
      simp [step, hslot]
  | sweep clientID e =>
      obtain ⟨slot, hslot, rfl⟩ := step_sweep hstep
      refine ⟨t.put clientID slot, ?_, h.put⟩
      rw [h.1, h.2 clientID he] at hslot
      simp [step, hslot]

theorem concerns_iff {e : HttpEvent} (h : ∀ r c, e = .serve r c → ¬ SharesToken r r₀) :
    Concerns r₀ e ↔ Visible r₀ e.event := by
  cases e with
  | tick d => exact Iff.rfl
  | serve r c => exact (clientIDs_iff (h r c rfl)).symm
  | sweep clientID c => exact Iff.rfl

open scoped Classical in
/-- The client's part of a run is a run of its own, with the same answers. -/
theorem run_clientPart (hrun : Run (httpMiddleware lib rl) (State.init Bytes L now) tr s)
    (hunshared : Unshared r₀ tr) :
    ∃ s', Run (httpMiddleware lib rl) (State.init Bytes L now) (clientPart r₀ tr) s' := by
  have hpart : clientPart r₀ tr = tr.filter fun x => Visible r₀ x.1.event := by
    refine List.filter_congr fun x hx => ?_
    rw [decide_eq_decide]
    apply concerns_iff
    intro r c heq
    exact hunshared r c x.2 (heq ▸ hx)
  rw [hpart]
  have hinit : AgreeFor r₀ (State.init Bytes L now) (State.init Bytes L now) :=
    ⟨rfl, fun _ _ => rfl⟩
  have hpurged : ∃ s', Run (httpMiddleware lib rl) (State.init Bytes L now)
      (tr.filter fun x => Visible r₀ x.1.event) s' ∧ AgreeFor r₀ s s' := by
    apply Run.purge _ _ hrun hinit
    · intro m n e o m' hR hhidden hstep
      obtain ⟨⟨_, out⟩, hout, heq⟩ := Option.map_eq_some_iff.mp hstep
      cases heq
      exact hR.hidden (of_decide_eq_false hhidden) hout
    · intro m n e o m' hR hvisible hstep
      obtain ⟨⟨_, out⟩, hout, heq⟩ := Option.map_eq_some_iff.mp hstep
      cases heq
      obtain ⟨n', hn', hR'⟩ := hR.visible (of_decide_eq_true hvisible) hout
      exact ⟨n', by simp [httpMiddleware, hn'], hR'⟩
  obtain ⟨s', hs', -⟩ := hpurged
  exact ⟨s', hs'⟩

/-- Identifiers stand for credentials exactly where no token is shared and ports do not
differ. Where nobody shares a client's token, its requests are answered as if there were no
others, so that the same requests of the client get the same answers in any two runs. -/
theorem clients_not_mixed (lib : Limiter L) (rl : RateLimiter) (now : ℤ) (r₀ r : Request) :
    ((getClientID r = getClientID r₀ ↔ SameClient r r₀) ↔
      ¬ SharesToken r r₀ ∧ ¬ PortsDiffer r r₀) ∧
    ∀ tr s, Run (httpMiddleware lib rl) (State.init Bytes L now) tr s → Unshared r₀ tr →
      (∃ s', Run (httpMiddleware lib rl) (State.init Bytes L now) (clientPart r₀ tr) s') ∧
      ∀ tr' s', Run (httpMiddleware lib rl) (State.init Bytes L now) tr' s' → Unshared r₀ tr' →
        (clientPart r₀ tr).map Prod.fst = (clientPart r₀ tr').map Prod.fst →
        clientPart r₀ tr = clientPart r₀ tr' := by
  refine ⟨getClientID_exact_iff, fun tr s hrun hunshared => ?_⟩
  obtain ⟨m, hm⟩ := run_clientPart hrun hunshared
  refine ⟨⟨m, hm⟩, fun tr' s' hrun' hunshared' hevents => ?_⟩
  obtain ⟨m', hm'⟩ := run_clientPart hrun' hunshared'
  exact hm.outputs_unique hm' hevents

/-- Two tokens as the auth service issues them: their first 32 bytes are in the header that all
of them have. -/
def firstToken : Request :=
  { apiKey := [], authorization := ascii "Bearer eyJhbGciOiJFUzI1NiIsInR5cCI6IkpXVCJ9.a"
    remoteAddr := ascii "10.0.0.1:1000" }

def secondToken : Request :=
  { apiKey := [], authorization := ascii "Bearer eyJhbGciOiJFUzI1NiIsInR5cCI6IkpXVCJ9.b"
    remoteAddr := ascii "10.0.0.2:1000" }

def keyed : Request := { apiKey := ascii "k", authorization := [], remoteAddr := [] }

def limiterOfOne : RateLimiter := newRateLimiter 1 1 second

def keyedTrace : HttpTrace :=
  [(.serve firstToken .load, .running (.started 0)), (.serve keyed .load, .running (.started 0)),
    (.serve firstToken (.store 0), .running .done), (.serve keyed (.store 0), .running .done),
    (.serve firstToken (.allow 0), .next), (.serve keyed (.allow 0), .next)]

theorem clients_not_mixed_keyed : ∃ s s',
    Run (httpMiddleware bucket limiterOfOne) (State.init Bytes Bucket 0) keyedTrace s ∧
    Run (httpMiddleware bucket limiterOfOne) (State.init Bytes Bucket 0)
      (clientPart keyed keyedTrace) s' := by
  have hrun : ∃ s, Run (httpMiddleware bucket limiterOfOne) (State.init Bytes Bucket 0)
      keyedTrace s := ⟨_, _, rfl, _, rfl, _, rfl, _, rfl, _, rfl, _, rfl, rfl⟩
  obtain ⟨s, hrun⟩ := hrun
  have hunshared : Unshared keyed keyedTrace := by
    intro r e o _ hshares
    exact absurd hshares.apiKey.2 (by decide)
  obtain ⟨s', hs'⟩ :=
    ((clients_not_mixed bucket limiterOfOne 0 keyed firstToken).2 _ s hrun hunshared).1
  exact ⟨s, s', hrun, hs'⟩

theorem run_requests (clientID : Bytes) {requests : List (Request × CallStep × Output)}
    {slot : Slot L} (hid : ∀ x ∈ requests, getClientID x.1 = clientID)
    (h : Run (Slot.call lib rl s.now) (s.slots clientID) (requests.map Prod.snd) slot) :
    ∃ s', Run (httpMiddleware lib rl) s
      (requests.map fun x => (.serve x.1 x.2.1, respond x.2.2)) s' := by
  induction requests generalizing s with
  | nil => exact ⟨s, rfl⟩
  | cons x requests ih =>
      obtain ⟨slot₁, hslot, hrest⟩ := h
      have hx : getClientID x.1 = clientID := hid x List.mem_cons_self
      have hstep : httpMiddleware lib rl s (.serve x.1 x.2.1) =
          some (s.put clientID slot₁, respond x.2.2) := by
        simp [httpMiddleware, HttpEvent.event, step, hx, hslot]
      have hrest' : Run (Slot.call lib rl (s.put clientID slot₁).now)
          ((s.put clientID slot₁).slots clientID) (requests.map Prod.snd) slot := by
        simpa using hrest
      obtain ⟨s', hs'⟩ := ih (fun y hy => hid y (List.mem_cons_of_mem _ hy)) hrest'
      exact ⟨s', _, hstep, hs'⟩

def secondThenFirst : List (Request × CallStep × Output) :=
  [(secondToken, .load, .started 0), (secondToken, .store 0, .done),
    (secondToken, .allow 0, .allowed true), (firstToken, .load, .started 1),
    (firstToken, .touch 1, .done), (firstToken, .allow 1, .allowed false)]

def firstAlone : List (Request × CallStep × Output) :=
  [(firstToken, .load, .started 0), (firstToken, .store 0, .done),
    (firstToken, .allow 0, .allowed true)]

/-- A request is refused because of the request of another client, whose token has the same
first 32 bytes; without the other one it passes. -/
theorem shared_token_refused : ¬ SameClient firstToken secondToken ∧
    getClientID firstToken = getClientID secondToken ∧
    (∃ s, Run (httpMiddleware bucket limiterOfOne) (State.init Bytes Bucket 0)
      (secondThenFirst.map fun x => (.serve x.1 x.2.1, respond x.2.2)) s) ∧
    ∃ s, Run (httpMiddleware bucket limiterOfOne) (State.init Bytes Bucket 0)
      (firstAlone.map fun x => (.serve x.1 x.2.1, respond x.2.2)) s := by
  have hshares : SharesToken firstToken secondToken :=
    ⟨by decide, by decide, by decide, by decide⟩
  have hid : getClientID secondToken = getClientID firstToken := hshares.getClientID_eq.symm
  refine ⟨hshares.not_sameClient, hid.symm, ?_, ?_⟩
  · apply run_requests (getClientID firstToken)
    · simp [secondThenFirst, hid]
    · exact ⟨_, rfl, _, rfl, _, rfl, _, rfl, _, rfl, _, rfl, rfl⟩
  · apply run_requests (getClientID firstToken)
    · simp [firstAlone]
    · exact ⟨_, rfl, _, rfl, _, rfl, rfl⟩

end GrpcVault.RateLimit
