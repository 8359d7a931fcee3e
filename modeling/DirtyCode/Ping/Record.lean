import DirtyCode.Lib.Machine

/-!
The record that `sbping` and `liveping` keep of a host, and what `handle_ping_reply`
does with it in another thread.
-/

namespace DirtyCode.Ping

inductive Family
  | inet
  | inet6
  deriving DecidableEq, Repr

structure Record where
  seq : Int
  latency : Int
  lastSend : Int
  lostStart : Int
  lost : Int
  deriving DecidableEq, Repr

namespace Record

/-- What a reply does that passes every check; `rtt` is already an `int`. -/
def handlePingReply (e : Record) (rtt : Int) : Record :=
  { e with latency := rtt, lost := 0, lostStart := -1 }

def sendPing (e : Record) (now : Int) (sent : Bool) : Record :=
  if sent then { e with lastSend := now } else e

end Record

end DirtyCode.Ping
