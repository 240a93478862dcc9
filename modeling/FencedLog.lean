import FencedLog.Json.Stored
import FencedLog.Network.Recovery
import FencedLog.Proofs.Broker.Alone
import FencedLog.Proofs.Broker.Attribution
import FencedLog.Proofs.Broker.Blames
import FencedLog.Proofs.Broker.Committed
import FencedLog.Proofs.Broker.Data
import FencedLog.Proofs.Broker.Entries
import FencedLog.Proofs.Broker.Fencing
import FencedLog.Proofs.Broker.Hanging
import FencedLog.Proofs.Broker.Last
import FencedLog.Proofs.Broker.Ledger
import FencedLog.Proofs.Broker.Reads
import FencedLog.Proofs.Broker.Refused
import FencedLog.Proofs.Broker.Run
import FencedLog.Proofs.Broker.Single
import FencedLog.Proofs.Company.Commit
import FencedLog.Proofs.Company.Pose
import FencedLog.Proofs.Coordinator.Agreed
import FencedLog.Proofs.Coordinator.Bearers
import FencedLog.Proofs.Coordinator.Closing
import FencedLog.Proofs.Coordinator.Expiry
import FencedLog.Proofs.Coordinator.Independent
import FencedLog.Proofs.Coordinator.Repeat
import FencedLog.Proofs.Coordinator.Sound
import FencedLog.Proofs.Coordinator.Tally
import FencedLog.Proofs.Coordinator.Turn
import FencedLog.Proofs.Coordinator.Verdict
import FencedLog.Proofs.Delivery.Causes
import FencedLog.Proofs.Delivery.Completions
import FencedLog.Proofs.Delivery.Gathered
import FencedLog.Proofs.Delivery.Halt
import FencedLog.Proofs.Delivery.Lanes
import FencedLog.Proofs.Delivery.Moves
import FencedLog.Proofs.Delivery.Neighbors
import FencedLog.Proofs.Delivery.Overtaking
import FencedLog.Proofs.Delivery.Register
import FencedLog.Proofs.Json.Lexing
import FencedLog.Proofs.Json.Records
import FencedLog.Proofs.Json.RoundTrip
import FencedLog.Proofs.Log.Items
import FencedLog.Proofs.Log.Visible
import FencedLog.Proofs.Progress
import FencedLog.Proofs.Retry.Tries
import FencedLog.Proofs.Scene.Agenda
import FencedLog.Proofs.Scene.Alone
import FencedLog.Proofs.Scene.Ascending
import FencedLog.Proofs.Scene.Basic
import FencedLog.Proofs.Scene.Calm
import FencedLog.Proofs.Scene.Certain
import FencedLog.Proofs.Scene.Concluded
import FencedLog.Proofs.Scene.Coupled
import FencedLog.Proofs.Scene.Delivered
import FencedLog.Proofs.Scene.Enlisted
import FencedLog.Proofs.Scene.Exact
import FencedLog.Proofs.Scene.Handoff
import FencedLog.Proofs.Scene.Haul
import FencedLog.Proofs.Scene.History
import FencedLog.Proofs.Scene.Landed
import FencedLog.Proofs.Scene.Onward
import FencedLog.Proofs.Scene.Passage
import FencedLog.Proofs.Scene.Sealed
import FencedLog.Proofs.Scene.Steps
import FencedLog.Proofs.Scene.Truthful
import FencedLog.Proofs.Scene.Unseen
import FencedLog.Proofs.Scene.Withdrawn
import FencedLog.Proofs.Session.Accounted
import FencedLog.Proofs.Session.Addressed
import FencedLog.Proofs.Session.Annals
import FencedLog.Proofs.Session.Daybook
import FencedLog.Proofs.Session.Doomed
import FencedLog.Proofs.Session.Ending
import FencedLog.Proofs.Session.Halt
import FencedLog.Proofs.Session.Latch
import FencedLog.Proofs.Session.Lawful
import FencedLog.Proofs.Session.Manifest
import FencedLog.Proofs.Session.Neighborly
import FencedLog.Proofs.Session.Once
import FencedLog.Proofs.Session.Properties
import FencedLog.Proofs.Session.Relisted
import FencedLog.Proofs.Session.Restored
import FencedLog.Proofs.Session.Routing
import FencedLog.Proofs.Session.Spread
import FencedLog.Proofs.Session.Standing
import FencedLog.Proofs.Session.Started
import FencedLog.Proofs.Session.Steps
import FencedLog.Proofs.World.Recovery
import FencedLog.Proofs.World.Still
