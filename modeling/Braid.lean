import Braid.Daemon.HalfClose
import Braid.Daemon.Pending
import Braid.Client.Feeding
import Braid.Daemon.History
import Braid.Client.LastColumn
import Braid.Forwarding.Honest
import Braid.Daemon.Mailbox
import Braid.Daemon.QueryNeutral
import Braid.Commands.Exchange
import Braid.Session.Waking
import Braid.Client.Trust
import Braid.Client.LocalEcho
import Braid.Session.Replay
import Braid.Session.Between
import Braid.Session.Log
import Braid.Dgram.Deadline
import Braid.Dgram.Trace
import Braid.Proto.Packing
import Braid.Forwarding.Retention
import Braid.Dgram.Recall
import Braid.Dgram.Schedule
import Braid.Dgram.Evidence
import Braid.Dgram.Pacing
import Braid.Dgram.Docket
import Braid.Dgram.Migration
