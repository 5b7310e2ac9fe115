import FuTrader.Ctp.Api
import FuTrader.Lib.Permits

/- CtpTdClient: the caller of its member functions, the binary semaphore, and the CTP API,
   which answers each accepted request by callbacks in any order. `P` stands for double. -/
namespace CtpTd
open Ctp Errconfig

/-- The fields of CtpConfig that are put into requests. -/
structure Config where
  brokerID : String
  userID : String
  password : String
  appID : String
  authCode : String

inductive Direction where
  | THOST_FTDC_D_Buy
  | THOST_FTDC_D_Sell

inductive OffsetFlag where
  | THOST_FTDC_OF_Open
  | THOST_FTDC_OF_Close

/-- The fields of CThostFtdcInputOrderField that OrderInsert sets. -/
structure InputOrder (P : Type) where
  direction : Direction
  combOffsetFlag : OffsetFlag
  volumeTotalOriginal : Int
  limitPrice : P
  stopPrice : P

/- The requests of CThostFtdcTraderApi that the client makes. -/
inductive Req (P : Type) where
  | authenticate (brokerID userID appID authCode : String)
  | userLogin (brokerID userID password : String)
  | settlementInfoConfirm
  | qryInvestorPosition
  | qryTradingAccount
  | orderInsert (order : InputOrder P)
  | orderAction
  | qryInstrument (exchangeID : String)
  | qryExchange
  | qryProduct
  | qryInstrumentCommissionRate
  | qryInstrumentOrderCommRate
  | qryDepthMarketData (instrumentID : String)

/- What a member function does with the API and the semaphore, in order: `req` drops what
   the request returns, `retry` is a loop that makes the request until it returns 0, and
   `flowOff` is the end of a function that is declared bool and returns no value. -/
inductive Stmt (P : Type) where
  | init
  | req (r : Req P)
  | retry (r : Req P)
  | acquire
  | flowOff

section
variable {P : Type}

/-- What follows the loading of the library and RegisterFront. -/
def start (cfg : Config) : List (Stmt P) := [
  .init,
  .acquire,
  .req (.authenticate cfg.brokerID cfg.userID cfg.appID cfg.authCode),
  .acquire,
  .req (.userLogin cfg.brokerID cfg.userID cfg.password),
  .acquire]

def settlementInfo : List (Stmt P) := [.req .settlementInfoConfirm, .acquire]

def qryInvestorPosition : List (Stmt P) := [.req .qryInvestorPosition, .acquire]

def qryTradingAccount : List (Stmt P) := [.req .qryTradingAccount, .acquire]

/-- The symbol is not put into the order. -/
def orderInsert [Zero P] (_symbol : String) (direction : Direction) (offset : OffsetFlag)
    (price : P) (lot : Int) (isStop : Bool) : List (Stmt P) := [
  .req (.orderInsert {
    direction := direction
    combOffsetFlag := offset
    volumeTotalOriginal := lot
    limitPrice := if isStop then 0 else price
    stopPrice := if isStop then price else 0 })]

def buy [Zero P] (symbol : String) (lot : Int) (price : P) : List (Stmt P) :=
  orderInsert symbol .THOST_FTDC_D_Buy .THOST_FTDC_OF_Open price lot false ++ [.flowOff]

def sell [Zero P] (symbol : String) (lot : Int) (price : P) : List (Stmt P) :=
  orderInsert symbol .THOST_FTDC_D_Sell .THOST_FTDC_OF_Close price lot false ++ [.flowOff]

def sellShort [Zero P] (symbol : String) (lot : Int) (price : P) : List (Stmt P) :=
  orderInsert symbol .THOST_FTDC_D_Sell .THOST_FTDC_OF_Open price lot false ++ [.flowOff]

def buy2Cover [Zero P] (symbol : String) (lot : Int) (price : P) : List (Stmt P) :=
  orderInsert symbol .THOST_FTDC_D_Buy .THOST_FTDC_OF_Close price lot false ++ [.flowOff]

def orderAction : List (Stmt P) := [.req .orderAction]

def qryInstrument (exchangeIds : List String) : List (Stmt P) :=
  if exchangeIds.isEmpty then [.req (.qryInstrument "")]
  else exchangeIds.map fun e => .req (.qryInstrument e)

def qryExchange : List (Stmt P) := [.req .qryExchange]

def qryProduct : List (Stmt P) := [.req .qryProduct]

def qryInstrumentCommissionRate : List (Stmt P) := [.req .qryInstrumentCommissionRate]

def qryInstrumentOrderCommRate : List (Stmt P) := [.req .qryInstrumentOrderCommRate]

def qryDepthMarketData (symbol : String) : List (Stmt P) := [
  .retry (.qryDepthMarketData symbol),
  .acquire]
end

/- The public member functions. -/
inductive Call (P : Type) where
  | start
  | settlementInfo
  | qryInvestorPosition
  | qryTradingAccount
  | orderAction
  | qryInstrument (exchangeIds : List String)
  | qryExchange
  | qryProduct
  | qryInstrumentCommissionRate
  | qryInstrumentOrderCommRate
  | qryDepthMarketData (symbol : String)
  | buy (symbol : String) (lot : Int) (price : P)
  | sell (symbol : String) (lot : Int) (price : P)
  | sellShort (symbol : String) (lot : Int) (price : P)
  | buy2Cover (symbol : String) (lot : Int) (price : P)

def Call.body {P : Type} [Zero P] (cfg : Config) : Call P → List (Stmt P)
  | .start => CtpTd.start cfg
  | .settlementInfo => CtpTd.settlementInfo
  | .qryInvestorPosition => CtpTd.qryInvestorPosition
  | .qryTradingAccount => CtpTd.qryTradingAccount
  | .orderAction => CtpTd.orderAction
  | .qryInstrument exchangeIds => CtpTd.qryInstrument exchangeIds
  | .qryExchange => CtpTd.qryExchange
  | .qryProduct => CtpTd.qryProduct
  | .qryInstrumentCommissionRate => CtpTd.qryInstrumentCommissionRate
  | .qryInstrumentOrderCommRate => CtpTd.qryInstrumentOrderCommRate
  | .qryDepthMarketData symbol => CtpTd.qryDepthMarketData symbol
  | .buy symbol lot price => CtpTd.buy symbol lot price
  | .sell symbol lot price => CtpTd.sell symbol lot price
  | .sellShort symbol lot price => CtpTd.sellShort symbol lot price
  | .buy2Cover symbol lot price => CtpTd.buy2Cover symbol lot price

def Call.isStart {P : Type} : Call P → Bool
  | .start => true
  | _ => false

/- `reqId` is the int `_req_id`; past INT_MAX its `++` is undefined and wraps here. `requested`
   is the number of requests made: by it they are told apart, and the client has no such
   member. `todo` is what the caller has yet to do of the member function that it runs;
   `pending` are the accepted requests, each with its number, that the API has not answered
   in full. -/
structure State (P : Type) where
  sem : Nat
  reqId : Int32
  requested : Nat
  started : Bool
  todo : List (Stmt P)
  front : Front
  pending : List (Nat × Req P)

/- `send ret`: the caller makes its request and the API returns `ret`. The API may call
   back at any time: `response n errorID bIsLast` is the callback of the request number `n`.
   `flowOff`: the caller comes to the end of a function without its return value, which is
   undefined; the function returns, or runs on into the code of another one. -/
inductive Action (P : Type) where
  | call (c : Call P)
  | init
  | send (ret : Int)
  | acquire
  | response (n : Nat) (errorID : Option Int) (bIsLast : Bool)
  | flowOff (into : Option (Call P))
  | onFrontConnected
  | onFrontDisconnected (nReason : Int)

section
variable {P : Type} (B : Permits.Semaphore)

/-- `_sem.release()`; what it does at count 1 is up to `B`. -/
def State.release (s : State P) : State P := { s with sem := B.released s.sem }

/-- `handle_resp(...)`, which only prints, and `if (bIsLast) _sem.release();`. -/
def onRsp (_errorID : Option Int) (bIsLast : Bool) (s : State P) : State P :=
  if bIsLast then s.release B else s

def onRspAuthenticate : Option Int → Bool → State P → State P := onRsp B
def onRspUserLogin : Option Int → Bool → State P → State P := onRsp B
def onRspSettlementInfoConfirm : Option Int → Bool → State P → State P := onRsp B
def onRspQryInvestorPosition : Option Int → Bool → State P → State P := onRsp B
def onRspQryTradingAccount : Option Int → Bool → State P → State P := onRsp B
def onRspOrderInsert : Option Int → Bool → State P → State P := onRsp B
def onRspOrderAction : Option Int → Bool → State P → State P := onRsp B
def onRspQryInstrument : Option Int → Bool → State P → State P := onRsp B
def onRspQryExchange : Option Int → Bool → State P → State P := onRsp B
def onRspQryProduct : Option Int → Bool → State P → State P := onRsp B
def onRspQryInstrumentCommissionRate : Option Int → Bool → State P → State P := onRsp B
def onRspQryInstrumentOrderCommRate : Option Int → Bool → State P → State P := onRsp B
-- its handle_resp is commented out
def onRspQryDepthMarketData : Option Int → Bool → State P → State P := onRsp B

def Req.callback : Req P → Option Int → Bool → State P → State P
  | .authenticate .. => onRspAuthenticate B
  | .userLogin .. => onRspUserLogin B
  | .settlementInfoConfirm => onRspSettlementInfoConfirm B
  | .qryInvestorPosition => onRspQryInvestorPosition B
  | .qryTradingAccount => onRspQryTradingAccount B
  | .orderInsert _ => onRspOrderInsert B
  | .orderAction => onRspOrderAction B
  | .qryInstrument _ => onRspQryInstrument B
  | .qryExchange => onRspQryExchange B
  | .qryProduct => onRspQryProduct B
  | .qryInstrumentCommissionRate => onRspQryInstrumentCommissionRate B
  | .qryInstrumentOrderCommRate => onRspQryInstrumentOrderCommRate B
  | .qryDepthMarketData _ => onRspQryDepthMarketData B

theorem callback_onRsp (r : Req P) : r.callback B = onRsp B := by cases r <;> rfl

def onFrontConnected (s : State P) : State P := s.release B

/-- A request made with `++_req_id`; the API will answer it if it returns 0. -/
def State.request (s : State P) (r : Req P) (ret : Int) : State P :=
  { s with
    reqId := s.reqId + 1
    requested := s.requested + 1
    pending := if ret = 0 then s.pending ++ [(s.requested + 1, r)] else s.pending }

/-- Start comes first and once: it loads the library that the API object is from. -/
def callStep [Zero P] (cfg : Config) (s : State P) (c : Call P) : Option (State P) :=
  if s.todo.isEmpty ∧ c.isStart = !s.started then
    some { s with started := true, todo := c.body cfg }
  else none

def initStep (s : State P) : Option (State P) :=
  match s.todo with
  | .init :: rest => some { s with todo := rest, front := .connecting }
  | _ => none

def sendStep (s : State P) (ret : Int) : Option (State P) :=
  if ret ≤ 0 then
    match s.todo with
    | .req r :: rest => some { s.request r ret with todo := rest }
    | .retry r :: rest =>
      if ret = 0 then some { s.request r ret with todo := rest }
      else match lookup REQ_ERRORS ret with
        | some _ => some (s.request r ret)                             -- after 200 ms
        | none => some { s.request r ret with todo := [] }             -- at() throws
    | _ => none
  else none

def acquireStep (s : State P) : Option (State P) :=
  match s.todo with
  | .acquire :: rest =>
    if 0 < s.sem then some { s with sem := s.sem - 1, todo := rest } else none
  | _ => none

/-- Of the responses to one request, the last one and no other has bIsLast. -/
def responseStep (s : State P) (n : Nat) (errorID : Option Int) (bIsLast : Bool) :
    Option (State P) :=
  (s.pending.find? fun p => p.1 = n).map fun p =>
    p.2.callback B errorID bIsLast
      { s with pending := if bIsLast then s.pending.eraseP fun p => p.1 = n else s.pending }

/-- Start is not among the functions that the caller may run on into. -/
def flowOffStep [Zero P] (cfg : Config) (s : State P) (into : Option (Call P)) :
    Option (State P) :=
  match s.todo with
  | .flowOff :: rest => match into with
    | none => some { s with todo := rest }
    | some c => if c.isStart then none else some { s with todo := c.body cfg }
  | _ => none

def connectStep (s : State P) : Option (State P) :=
  if s.front = .connecting then some { onFrontConnected B s with front := .connected } else none

/-- OnFrontDisconnected prints the reason; of an unknown one, at() throws and ends it all. -/
def disconnectStep (s : State P) (nReason : Int) : Option (State P) :=
  if s.front = .connected ∧ (lookup DISCON_ERRORS nReason).isSome then
    some { s with front := .connecting }
  else none

def step [Zero P] (cfg : Config) (s : State P) : Action P → Option (State P)
  | .call c => callStep cfg s c
  | .init => initStep s
  | .send ret => sendStep s ret
  | .acquire => acquireStep s
  | .response n errorID bIsLast => responseStep B s n errorID bIsLast
  | .flowOff into => flowOffStep cfg s into
  | .onFrontConnected => connectStep B s
  | .onFrontDisconnected nReason => disconnectStep s nReason

def client [Zero P] (cfg : Config) : Machine (State P) (Action P) where
  init := {
    sem := 0, reqId := 0, requested := 0, started := false, todo := [], front := .closed,
    pending := [] }
  step := step B cfg

def acquires : List (Stmt P) → Bool
  | .acquire :: _ => true
  | _ => false

/-- The caller stands in `_sem.acquire()` with the semaphore at 0. -/
def State.Blocked (s : State P) : Prop := acquires s.todo = true ∧ s.sem = 0

instance : DecidablePred (State.Blocked : State P → Prop) := fun s =>
  inferInstanceAs (Decidable (acquires s.todo = true ∧ s.sem = 0))

def State.permits (s : State P) : Permits.State := ⟨s.sem, s.pending.length + s.front.owed⟩

/-- The semaphore is at 0 and no callback to come will release it. -/
def State.Clear (s : State P) : Prop :=
  s.sem = 0 ∧ s.pending = [] ∧ s.front ≠ .connecting

instance : DecidablePred (State.Clear : State P → Prop) := fun s =>
  inferInstanceAs (Decidable (s.sem = 0 ∧ s.pending = [] ∧ s.front ≠ .connecting))

end
end CtpTd
