import InterProcess.Library.Run
import InterProcess.Library.Table
import InterProcess.Library.Wire
import InterProcess.Server.Trap
import InterProcess.Server.Isolation
import InterProcess.Server.Lifecycle
import InterProcess.Server.Confusion
import InterProcess.Server.Refusal
import InterProcess.Server.Mask
import InterProcess.Server.Exit
import InterProcess.Server.Desk
import InterProcess.Server.Closing
import InterProcess.Server.Rest
import InterProcess.Server.Grammar
import InterProcess.Client.Line
import InterProcess.Client.Failure
import InterProcess.Runner.Operations
import InterProcess.Runner.Arithmetic
import InterProcess.Runner.Strings
import InterProcess.Runner.Deadline
import InterProcess.Runner.Ticket
import InterProcess.Runner.Step
import InterProcess.Runner.Shutdown
import InterProcess.Runner.Drain
import InterProcess.Runner.Wakeup
import InterProcess.Runner.Reissue
import InterProcess.Runner.Refinement
import InterProcess.Runner.BoundedWait
import InterProcess.Runner.Dispute
import InterProcess.Runner.Completion
import InterProcess.Runner.Overtaking
import InterProcess.Runner.Rest
import InterProcess.Network.Agreement
import InterProcess.Network.Survival
import InterProcess.Network.Pairing
import InterProcess.Network.History
import InterProcess.Network.Redemption
import InterProcess.Network.Answers
import InterProcess.Client.Listing
import InterProcess.Client.Script
import InterProcess.Network.Typed
