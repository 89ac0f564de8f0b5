import CircularLog.Query
import CircularLog.Store.Report
import CircularLog.Store.Walk
import CircularLog.Proofs.Bytes
import CircularLog.Proofs.Ends
import CircularLog.Proofs.Alike
import CircularLog.Proofs.Media.Calls
import CircularLog.Proofs.Geometry
import CircularLog.Proofs.Media.Outage
import CircularLog.Proofs.Media.Harmless
import CircularLog.Proofs.Media.Blackout
import CircularLog.Proofs.Media.Dialogue
import CircularLog.Proofs.Kept
import CircularLog.Proofs.Media.Journal
import CircularLog.Proofs.Media.TornWrite
import CircularLog.Proofs.Space.Read
import CircularLog.Proofs.Space.Write
import CircularLog.Proofs.Space.Outage
import CircularLog.Proofs.Space.Conduct
import CircularLog.Proofs.Space.Flat
import CircularLog.Proofs.Space.Harmless
import CircularLog.Proofs.Space.Slow
import CircularLog.Proofs.Partition.Ring
import CircularLog.Proofs.Partition.Log
import CircularLog.Proofs.Partition.Torn
import CircularLog.Proofs.Partition.Encoding
import CircularLog.Proofs.Partition.Rows
import CircularLog.Proofs.Partition.Recovery
import CircularLog.Proofs.Partition.Lookup
import CircularLog.Proofs.Partition.Append
import CircularLog.Proofs.Partition.Rollback
import CircularLog.Proofs.Repeat
import CircularLog.Proofs.Partition.Locality
import CircularLog.Proofs.Partition.Frame
import CircularLog.Proofs.Partition.Harmless
import CircularLog.Proofs.Partition.Marred
import CircularLog.Proofs.Store.Mount
import CircularLog.Proofs.Store.Operations
import CircularLog.Proofs.Store.Queues
import CircularLog.Proofs.Store.Frame
import CircularLog.Proofs.Store.Host
import CircularLog.Proofs.Store.Endurance
import CircularLog.Proofs.Store.Interrupted
import CircularLog.Proofs.Store.Bystanders
import CircularLog.Proofs.Store.Placement
import CircularLog.Proofs.Store.Acknowledged
import CircularLog.Proofs.Store.PowerLoss
import CircularLog.Proofs.Store.TornWrite
import CircularLog.Proofs.Partition.Scan
import CircularLog.Proofs.Partition.Effect
import CircularLog.Proofs.Partition.Table
import CircularLog.Proofs.Partition.Chain
import CircularLog.Proofs.Space.Containment
import CircularLog.Proofs.Store.Chains
import CircularLog.Proofs.Store.Keys
import CircularLog.Proofs.Partition.Boot
import CircularLog.Proofs.Partition.Iteration
import CircularLog.Proofs.Store.Start
import CircularLog.Proofs.Store.Answers
import CircularLog.Proofs.Store.Unfailing
import CircularLog.Proofs.Store.Iteration
import CircularLog.Proofs.Partition.Slow
import CircularLog.Proofs.Store.Slow
import CircularLog.Proofs.Space.Range
import CircularLog.Proofs.Space.Discipline
import CircularLog.Proofs.Store.Discipline
import CircularLog.Proofs.Space.Fading
import CircularLog.Proofs.Partition.Format
import CircularLog.Proofs.Store.Format
import CircularLog.Proofs.Store.Locality
import CircularLog.Proofs.Store.Independence
import CircularLog.Proofs.Partition.Search
import CircularLog.Proofs.Store.Lookup
import CircularLog.Proofs.Media.Schedule
import CircularLog.Proofs.Media.Resubmission
import CircularLog.Proofs.Space.Resubmission
import CircularLog.Proofs.Partition.Reboot
import CircularLog.Proofs.Store.Reboot
import CircularLog.Proofs.Store.Plan
import CircularLog.Proofs.Store.Seek
import CircularLog.Proofs.Store.Latch
import CircularLog.Proofs.Media.Reading
import CircularLog.Proofs.Partition.Reading
import CircularLog.Proofs.Store.Reading
import CircularLog.Proofs.Media.Wear
import CircularLog.Proofs.Space.Wear
