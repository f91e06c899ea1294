import Overseer.Proofs.Accounting
import Overseer.Proofs.BufferSizes
import Overseer.Proofs.ClosedAccounts
import Overseer.Proofs.Commuting
import Overseer.Proofs.Delivery
import Overseer.Proofs.HandedOut
import Overseer.Schedule
import Overseer.Proofs.Markup.Insertion
import Overseer.Proofs.Markup.Truncation
import Overseer.Proofs.NormalForm
import Overseer.Proofs.Rejection
import Overseer.Proofs.Rearming
import Overseer.Proofs.Serving
import Overseer.Proofs.Staleness
import Overseer.Proofs.Survival
import Overseer.Proofs.Turns
import Overseer.Proofs.Traffic
import Overseer.Proofs.Steadiness
import Overseer.Proofs.Markup.Cutting
import Overseer.Proofs.Circuit
import Overseer.Proofs.Site
import Overseer.Proofs.Storms
import Overseer.Proofs.Isolation
import Overseer.Proofs.Share
import Overseer.Proofs.Markup.Relocation
import Overseer.Proofs.Markup.Incomplete
import Overseer.Proofs.ChildOrder
import Overseer.Proofs.Histories
import Overseer.Proofs.Containment
import Overseer.Proofs.Confinement
import Overseer.Proofs.Naming
import Overseer.Proofs.RestartLedger
import Overseer.Proofs.Shortages
import Overseer.Proofs.Transcript
import Overseer.Proofs.Handover
import Overseer.Proofs.Draining
import Overseer.Proofs.SizeText
import Overseer.Proofs.LabelText
import Overseer.Proofs.Markup.Decoding
