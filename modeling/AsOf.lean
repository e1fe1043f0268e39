import AsOf.Value
import AsOf.Proofs.Agreement
import AsOf.Proofs.Cache
import AsOf.Proofs.Descent
import AsOf.Proofs.Edits
import AsOf.Proofs.Engine.Atomicity
import AsOf.Proofs.Engine.Hits
import AsOf.Proofs.Engine.Repeat
import AsOf.Proofs.Engine.Shared
import AsOf.Proofs.Published
import AsOf.Proofs.Replica.Announcement
import AsOf.Proofs.Replica.Blind
import AsOf.Proofs.Replica.Exactness
import AsOf.Proofs.Replica.Laziness
import AsOf.Proofs.Replica.Punctual
import AsOf.Proofs.Replica.Resumption
import AsOf.Proofs.Replica.Reading
import AsOf.Proofs.Replica.Tolls
import AsOf.Proofs.Replica.Upright
import AsOf.Proofs.Reset
