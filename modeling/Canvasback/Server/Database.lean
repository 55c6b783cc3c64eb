import Canvasback.Server.Sound

/-!
# When the database fails

`send_conn` reports no status, and `read_cb` registers whatever `PQsocket`
gives it. That is contained if the connection comes about and the query goes
out, and in no other case.
-/

namespace Canvasback

open Runs Server

/-- A client answered, and everything it held given back. -/
structure Server.Done (t t' : Server) (p : Nat) (c : Client) (writes : List (List UInt8)) :
    Prop where
  sent : t.files c.fd = some file → t'.sent file = t.sent file ++ writes.flatten
  conn : t'.files c.fd = none ∧ t'.fds c.fd = none
  db : t'.files c.dbfd = none ∧ t'.fds c.dbfd = none
  heap : t'.heap p = none
  pg : t'.pgs c.conn = none

section
variable (scale : Scale) (junk : Nat → UInt8) (fuel : Nat)

end

section
variable {s s' t : Server} {fd : Fd} {p : Nat} {c : Client} {r : Read} {behind : List UInt8}
  {db : Libpq} {n : Longs} {log : List Entry} {rows : List Row} {scale : Scale}
  {junk : Nat → UInt8} {fuel : Nat} {listenSock : Fd} {who : Actor} {ws : List (List UInt8)}

end

-- ---------------------------------------------------------------------------
-- A database that is down, and one that is up
-- ---------------------------------------------------------------------------

end Canvasback
