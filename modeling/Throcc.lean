import Throcc.Accounting
import Throcc.Allowances
import Throcc.AudioRing
import Throcc.AudioTurns
import Throcc.Binding
import Throcc.Budget
import Throcc.Chunker
import Throcc.Completes
import Throcc.Conserving
import Throcc.Control
import Throcc.Convergence
import Throcc.Delivery
import Throcc.Departure
import Throcc.Dialogue
import Throcc.DroppedUnits
import Throcc.EgressTask
import Throcc.Fitting
import Throcc.Framing
import Throcc.Gate
import Throcc.Guessing
import Throcc.Ingress
import Throcc.Invitations
import Throcc.InviteCaps
import Throcc.InviteRuns
import Throcc.InviteText
import Throcc.Keystore
import Throcc.Locks
import Throcc.Microphone
import Throcc.Nonces
import Throcc.Overtaking
import Throcc.Pacing
import Throcc.Partings
import Throcc.PlainWindow
import Throcc.Playback
import Throcc.Provenance
import Throcc.Ranks
import Throcc.Reconnect
import Throcc.Recoveries
import Throcc.Refusals
import Throcc.Rejoins
import Throcc.Repeats
import Throcc.Replay
import Throcc.RoundTrip
import Throcc.Saving
import Throcc.Secrecy
import Throcc.Shrinking
import Throcc.SourceRuns
import Throcc.Standing
import Throcc.Trust
import Throcc.Verified
import Throcc.Viewing
import Throcc.Waits
import Throcc.Wakeups
import Throcc.Wrap
