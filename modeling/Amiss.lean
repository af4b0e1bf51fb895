import Amiss.Theory.Correlate.Order
import Amiss.Theory.Correlate.Renames
import Amiss.Theory.Relocations
import Amiss.Theory.Discovery.Includes
import Amiss.Theory.Discovery.Routes
import Amiss.Theory.Evaluate.Exceptions
import Amiss.Theory.Evaluate.Groups
import Amiss.Theory.Feedback
import Amiss.Theory.Git.Written
import Amiss.Theory.Policy
import Amiss.Theory.Published
import Amiss.Theory.Fixes
import Amiss.Theory.Line
import Amiss.Theory.Repair
import Amiss.Theory.Js
import Amiss.Theory.Envelope
import Amiss.Theory.Ledger.Fence
import Amiss.Theory.Orchestration
import Amiss.Theory.Relations.Outbox
import Amiss.Theory.Relations.Schedules
import Amiss.Theory.Webhook
