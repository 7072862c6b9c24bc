import TickHost.Value.Tagged
import TickHost.Fault
import TickHost.Session.Timers
import TickHost.Session.Bus
import TickHost.Session.Stream
import TickHost.Main
import TickHost.Proofs.Shutdown
import TickHost.Proofs.Ledger
import TickHost.Proofs.Alarms
import TickHost.Proofs.Checkpoints
import TickHost.Proofs.Touches
import TickHost.Proofs.Departures
import TickHost.Proofs.Evaluations
import TickHost.Proofs.Announcements
import TickHost.Proofs.Fetches
import TickHost.Proofs.Loads
import TickHost.Proofs.Deferrals
import TickHost.Proofs.Slices
import TickHost.Proofs.Packets
import TickHost.Proofs.Mended
import TickHost.Proofs.Delivery
import TickHost.Proofs.Completion
import TickHost.Proofs.Schedule
import TickHost.Proofs.Updates
import TickHost.Proofs.Drains
import TickHost.Proofs.Firing
import TickHost.Proofs.Cadence
import TickHost.Proofs.Readings
import TickHost.Proofs.Endings
import TickHost.Proofs.Gathering
import TickHost.Proofs.Saving
import TickHost.Proofs.LocalFiles
import TickHost.Proofs.Depths
import TickHost.Proofs.Overlaps
import TickHost.Proofs.Directives
