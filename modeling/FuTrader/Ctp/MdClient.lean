import FuTrader.Ctp.Api
import FuTrader.Lib.Permits

/- CtpMdClient: the caller of subscribe() and start(), the binary semaphore, and the CTP
   API, which answers each accepted request by callbacks in any order. -/
namespace CtpMd
open Ctp Errconfig

/- The requests of CThostFtdcMdApi that the client makes. -/
inductive Req where
  | userLogin (userID : String)
  | subscribeMarketData (symbols : List String)

/-- The numbers of responses with bIsLast that an accepted request may get: one, or one for
    each instrument of a subscription. -/
def Req.lasts : Req → Nat → Bool
  | .userLogin _, n => n = 1
  | .subscribeMarketData symbols, n => 0 < n ∧ (n = 1 ∨ n = symbols.length)

inductive Stmt where
  | init
  | req (r : Req)
  | acquire

def start (userID : String) (symbols : List String) : List Stmt := [
  .init,
  .acquire,
  .req (.userLogin userID),
  .acquire,
  .req (.subscribeMarketData symbols),
  .acquire]

/- `todo` is what the caller has yet to do of start(); `pending` has an entry for each
   response with bIsLast that the API is still to give. -/
structure State where
  sem : Nat
  symbols : List String
  started : Bool
  todo : List Stmt
  front : Front
  pending : List Req

/- `send ret n`: the caller makes its request, the API returns `ret` and will give `n`
   responses with bIsLast. `response k`: a callback for the entry `k` of those pending. -/
inductive Action where
  | subscribe (symbols : List String)
  | start
  | init
  | send (ret : Int) (n : Nat)
  | acquire
  | response (k : Nat) (errorID : Option Int) (bIsLast : Bool)
  | onFrontConnected
  | onFrontDisconnected (nReason : Int)

section
variable (B : Permits.Semaphore)

/-- `_sem.release()`; what it does at count 1 is up to `B`. -/
def State.release (s : State) : State := { s with sem := B.released s.sem }

/-- `handle_resp(...)`, which only prints, and `if (bIsLast) _sem.release();`. -/
def onRsp (_errorID : Option Int) (bIsLast : Bool) (s : State) : State :=
  if bIsLast then s.release B else s

def onRspUserLogin : Option Int → Bool → State → State := onRsp B
def onRspSubMarketData : Option Int → Bool → State → State := onRsp B

def Req.callback : Req → Option Int → Bool → State → State
  | .userLogin _ => onRspUserLogin B
  | .subscribeMarketData _ => onRspSubMarketData B

theorem callback_onRsp (r : Req) : r.callback B = onRsp B := by cases r <;> rfl

def onFrontConnected (s : State) : State := s.release B

def subscribeStep (s : State) (symbols : List String) : Option State :=
  if s.todo.isEmpty then some { s with symbols := symbols } else none

/-- start() is called once: it loads the library that the API object is from. -/
def startStep (userID : String) (s : State) : Option State :=
  if s.started then none else some { s with started := true, todo := start userID s.symbols }

def initStep (s : State) : Option State :=
  match s.todo with
  | .init :: rest => some { s with todo := rest, front := .connecting }
  | _ => none

def sendStep (s : State) (ret : Int) (n : Nat) : Option State :=
  match s.todo with
  | .req r :: rest =>
    if ret = 0 ∧ r.lasts n then
      some { s with todo := rest, pending := s.pending ++ List.replicate n r }
    else if ret < 0 then some { s with todo := rest }
    else none
  | _ => none

def acquireStep (s : State) : Option State :=
  match s.todo with
  | .acquire :: rest =>
    if 0 < s.sem then some { s with sem := s.sem - 1, todo := rest } else none
  | _ => none

def responseStep (s : State) (k : Nat) (errorID : Option Int) (bIsLast : Bool) :
    Option State :=
  (s.pending[k]?).map fun r =>
    r.callback B errorID bIsLast
      { s with pending := if bIsLast then s.pending.eraseIdx k else s.pending }

def connectStep (s : State) : Option State :=
  if s.front = .connecting then some { onFrontConnected B s with front := .connected } else none

/-- OnFrontDisconnected prints the reason; of an unknown one, at() throws and ends it all. -/
def disconnectStep (s : State) (nReason : Int) : Option State :=
  if s.front = .connected ∧ (lookup DISCON_ERRORS nReason).isSome then
    some { s with front := .connecting }
  else none

def step (userID : String) (s : State) : Action → Option State
  | .subscribe symbols => subscribeStep s symbols
  | .start => startStep userID s
  | .init => initStep s
  | .send ret n => sendStep s ret n
  | .acquire => acquireStep s
  | .response k errorID bIsLast => responseStep B s k errorID bIsLast
  | .onFrontConnected => connectStep B s
  | .onFrontDisconnected nReason => disconnectStep s nReason

def client (userID : String) : Machine State Action where
  init := { sem := 0, symbols := [], started := false, todo := [], front := .closed, pending := [] }
  step := step B userID

end

def State.permits (s : State) : Permits.State := ⟨s.sem, s.pending.length + s.front.owed⟩

/-- The semaphore is at 0 and no callback to come will release it. -/
def State.Clear (s : State) : Prop :=
  s.sem = 0 ∧ s.pending = [] ∧ s.front ≠ .connecting

instance : DecidablePred State.Clear := fun s =>
  inferInstanceAs (Decidable (s.sem = 0 ∧ s.pending = [] ∧ s.front ≠ .connecting))

end CtpMd
