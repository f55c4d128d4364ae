import Pgs3.History
import Pgs3.Linearization
import Pgs3.ForkRace
import Pgs3.VersionListing
import Pgs3.ReadAgreement
import Pgs3.UploadLeases
import Pgs3.Concurrent.CompletionRace
import Pgs3.Concurrent.Serial
import Pgs3.Protocol.AwsChunkedFragments
import Pgs3.Protocol.HttpStream
import Pgs3.Protocol.Ranges
import Pgs3.S3.SignedOperation
import Pgs3.S3.RouteQuery
import Pgs3.S3.PartsListing
import Pgs3.Workers.HttpChunkedBodies
import Pgs3.Foundation.Calendar
import Pgs3.Foundation.Digits
import Pgs3.S3.Timestamps
