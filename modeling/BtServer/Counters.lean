import BtServer.Announce
import BtServer.WorkQueue

/-! The counters of `ot_stats.c`, which the requests of all clients change, and the statistics that are printed from them at
once. They are `unsigned long long`. -/

namespace BtServer
open Lib

/-- The counters `ot_overall_...`, `ot_renewed` and `ot_failed_request_counts`. Those of full scrapes stay 0, as nothing issues
`EVENT_FULLSCRAPE`. -/
structure Counters where
  tcpConnections : Nat
  udpConnections : Nat
  tcpSuccessfulannounces : Nat
  udpSuccessfulannounces : Nat
  tcpSuccessfulscrapes : Nat
  udpSuccessfulscrapes : Nat
  udpConnects : Nat
  completed : Nat
  syncCount : Nat
  renewed : Nat → Nat
  failedRequestCounts : Nat → Nat

def HttpError.code : HttpError → Nat
  | .found302 => 0
  | .badRequest400 => 1
  | .param400 => 2
  | .compact400 => 3
  | .notFound404 => 7

def codeHttperror500 : Nat := 8

def taskTaskMask : Nat := 0x0fff

def eventsPerTime (events : Nat) (t : Int) : Nat := events / max 1 (t % 2 ^ 32).toNat

/-- Two numbers, how long the tracker has been running, and a last line. -/
def mrtgText (first second : Nat) (t : Int) (line : Bytes) : Bytes :=
  decimal first ++ ascii "\n" ++ decimal second ++ ascii "\n" ++ signedDecimal (t.bmod (2 ^ 32)) ++ ascii " seconds (" ++
    signedDecimal ((t.tdiv 3600).bmod (2 ^ 32)) ++ ascii " hours)\n" ++ line

def connectionRates (name : String) (conns success : Nat) (t : Int) : Bytes :=
  ascii name ++ decimal (eventsPerTime conns t) ++ ascii " conns/s :: " ++ decimal (eventsPerTime success t) ++
    ascii " success/s."

def statsFullscrapesMrtg (t : Int) : Bytes :=
  mrtgText 0 0 t (ascii "opentracker full scrape stats, 0 conns/s :: 0 bytes/s.")

/-- Every `g_version_...` is the same text here. -/
def statsReturnTrackerVersion : Bytes := (List.replicate 14 (ascii "$Source$: $Revision$\n")).flatten

namespace Counters

def initial : Counters := ⟨0, 0, 0, 0, 0, 0, 0, 0, 0, fun _ => 0, fun _ => 0⟩

def statsIssueEvent (counters : Counters) : StatsEvent → Counters
  | .accept .tcp => { counters with tcpConnections := incSize counters.tcpConnections }
  | .accept .udp => { counters with udpConnections := incSize counters.udpConnections }
  | .connect => { counters with udpConnects := incSize counters.udpConnects }
  | .announce .tcp => { counters with tcpSuccessfulannounces := incSize counters.tcpSuccessfulannounces }
  | .announce .udp => { counters with udpSuccessfulannounces := incSize counters.udpSuccessfulannounces }
  | .completed => { counters with completed := BtServer.statsIssueEvent counters.completed .completed }
  | .renew index =>
    { counters with renewed := Function.update counters.renewed index (incSize (counters.renewed index)) }
  | .sync count => { counters with syncCount := (counters.syncCount + count) % 2 ^ 64 }
  | .scrape .tcp => { counters with tcpSuccessfulscrapes := incSize counters.tcpSuccessfulscrapes }
  | .scrape .udp => { counters with udpSuccessfulscrapes := incSize counters.udpSuccessfulscrapes }
  | .failed code =>
    { counters with
      failedRequestCounts := Function.update counters.failedRequestCounts code (incSize (counters.failedRequestCounts code)) }

section Texts
variable (counters : Counters) (t : Int)

def connections : Nat := (counters.tcpConnections + counters.udpConnections) % 2 ^ 64

def successes : Nat :=
  (counters.tcpSuccessfulannounces + counters.udpSuccessfulannounces + counters.udpConnects) % 2 ^ 64

def statsConnectionsMrtg : Bytes :=
  mrtgText counters.connections counters.successes t
    (connectionRates "opentracker connections, " counters.connections counters.successes t)

def statsUdpconnectionsMrtg : Bytes :=
  let success := (counters.udpSuccessfulannounces + counters.udpConnects) % 2 ^ 64
  mrtgText counters.udpConnections success t
    (connectionRates "opentracker udp4 stats, " counters.udpConnections success t)

def statsTcpconnectionsMrtg : Bytes :=
  mrtgText counters.tcpConnections counters.tcpSuccessfulannounces t
    (connectionRates "opentracker tcp4 stats, " counters.tcpConnections counters.tcpSuccessfulannounces t)

def statsScrapeMrtg : Bytes :=
  let scrapes := (counters.tcpSuccessfulscrapes + counters.udpSuccessfulscrapes) % 2 ^ 64
  mrtgText counters.tcpSuccessfulscrapes counters.udpSuccessfulscrapes t
    (ascii "opentracker scrape stats, " ++ decimal (eventsPerTime scrapes t) ++ ascii " scrape/s (tcp and udp)")

/-- The labels are not those of the codes from 4 on. -/
def statsHttperrorsTxt : Bytes :=
  ["302 RED ", "400 ... ", "400 PAR ", "400 COM ", "403 IP  ", "404 INV ", "500 SRV "].zipIdx.flatMap fun (label, code) =>
    ascii label ++ decimal (counters.failedRequestCounts code) ++ ascii "\n"

def statsReturnRenewBucket : Bytes :=
  (List.range otPeerTimeout.toNat).flatMap fun i =>
    decimal (i / 10) ++ decimal (i % 10) ++ ascii " " ++ decimal (counters.renewed i) ++ ascii "\n"

def statsReturnSyncMrtg : Bytes :=
  mrtgText counters.syncCount 0 t
    (connectionRates "opentracker connections, " counters.connections counters.successes t)

def statsReturnCompletedMrtg : Bytes :=
  mrtgText counters.completed 0 t
    (ascii "opentracker, " ++ decimal (eventsPerTime counters.completed (t.tdiv 3600)) ++ ascii " completed/h.")

/-- `return_stats_for_tracker`, `t` seconds after the start; nothing for a mode it does not know. -/
def returnStatsForTracker (mode : Nat) : Bytes :=
  match mode &&& taskTaskMask with
  | 0x0001 => counters.statsConnectionsMrtg t
  | 0x0004 => counters.statsScrapeMrtg t
  | 0x0003 => counters.statsUdpconnectionsMrtg t
  | 0x0002 => counters.statsTcpconnectionsMrtg t
  | 0x0005 => statsFullscrapesMrtg t
  | 0x000c => counters.statsReturnCompletedMrtg t
  | 0x0007 => counters.statsHttperrorsTxt
  | 0x0008 => statsReturnTrackerVersion
  | 0x000a => counters.statsReturnRenewBucket
  | 0x000b => counters.statsReturnSyncMrtg t
  | _ => []

end Texts

end Counters

end BtServer
