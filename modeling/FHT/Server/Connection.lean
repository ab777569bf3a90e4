import FHT.Lib.Machine
import FHT.Server.Routing

/-!
# What happens on a connection

The events of one connection, common to both server builds: what completes, and what user code
does when it is called. Everything that user code decides is part of the event, so that an
event stands for every behaviour.

## Main definitions

- `Arrival` — a request that `async_read` delivers, with the handler's answer to it
- `UserRun` — a run of user code that holds the `wsSubscriber`
- `Action` — a completion, or user code between two completions
- `Event` — what a server is seen to do
-/

namespace FHT.Server

/-- How a handler answers a request: the `dataRequest` as it leaves it, and what it returns or
throws. -/
structure Reply (A : Type) where
  dataReq : DataRequest A
  result : Except Thrown DataResponse

/-- A request with what on_read meets when it handles it: `rest` are the bytes that the read
leaves in the buffer, `H` is the published handler table and `remote` the peer, `none` where
`remote_endpoint()` throws. The reply is the one of the handler, if one is called. -/
structure Arrival (F A : Type) where
  req : Request
  rest : Str
  H : StdMap Str F
  remote : Option Endpoint
  reply : Reply A

/-- What user code does with a `wsSubscriber`. A close that fails throws inside `stop`. -/
inductive UserOp
  | stop (closes : Bool)
  | getPublisher (str : Str)
  | setSubscriber (functor : Bool)
  | setDeleter (functor : Bool)
  deriving DecidableEq

/-- A run of user code: its calls, and the value it throws at the end. -/
structure UserRun where
  ops : List UserOp
  thrown : Option Thrown
  deriving DecidableEq

/-- A handler called for an accepted WebSocket. -/
structure WsHandlerRun (A : Type) where
  dataReq : DataRequest A
  run : UserRun

/-- `wsSubscriber`: which of the user's functors are set. -/
structure WsSubscriber where
  subscriber : Bool
  deleter : Bool
  deriving DecidableEq

/-- A completion on the connection; `user` is user code that runs between two of them. -/
inductive Action (F A : Type)
  | read (a : Arrival F A)
  | readError (endOfStream : Bool)
  | written (ok : Bool)
  | accepted (ok : Bool) (handler : WsHandlerRun A)
  | message (text : Bool) (payload : Str) (run : UserRun)
  | wsError (run : UserRun)
  | user (op : UserOp)

/-- What a server does, in order. -/
inductive Event (ρ F A : Type)
  | handler (f : F) (dataReq : DataRequest A)
  | response (res : ρ)
  | subscriber (str : Str)
  | deleter
  | published (str : Str)

/-- The responses among the events. -/
def responses {ρ F A : Type} (log : List (Event ρ F A)) : List ρ :=
  log.filterMap fun
    | .response res => some res
    | _ => none

/-- The strings that the subscriber was called with. -/
def delivered {ρ F A : Type} (log : List (Event ρ F A)) : List Str :=
  log.filterMap fun
    | .subscriber str => some str
    | _ => none

/-- Methods for which both servers go on to the routing. -/
def Verb.dispatched : Verb → Bool
  | .get | .post | .put => true
  | .head | .other => false

namespace DataRequest

variable {A : Type}

/-- The fields that are filled before the call of `remote_endpoint()`. -/
def withHead (d : DataRequest A) (uri : ParseUri) (req : Request) : DataRequest A :=
  { d with params := uri.uriParam, headers := d.headers.emplaceAll req.base }

/-- The fields that are filled after it. -/
def withPeer (d : DataRequest A) (req : Request) (info : Endpoint) : DataRequest A :=
  { d with
    uri := req.target
    nextLocation := ['.']
    ipClient := info.address
    portClient := info.port
    body := req.body }

end DataRequest

/-- The location that is routed: `head` for all requests under `lessenAll`. -/
def routedLocation (lessenAll : Bool) (uri : ParseUri) : Str :=
  if lessenAll then "head".toList else uri.location

end FHT.Server
